import Kernemul.Lib.KeyedTable
import Kernemul.Lib.Run
import Kernemul.Win.GuestStrings

/-!
# Hashes and ciphers (`cng.sys`)

Algorithm providers, hashes and keys are objects of the object manager; what they compute is OpenSSL's, which is a
parameter with what its manual says of it. A hash takes its data in any number of calls, a cipher all of it in one.

Neither guest memory nor the host's runs out, and what the handlers read and write is mapped. Closing and destroying
only count an object's references down, which nothing here reads.
-/

namespace Kernemul.Cng

open ByteMemory GuestStrings KeyedTable Text

inductive Status
  | success
  | invalidParameter
  | invalidHandle
  | notSupported
  | bufferTooSmall
  | insufficientResources
  | unsuccessful
  | invalidSignature
  deriving DecidableEq, Repr

/-! ## OpenSSL -/

/-- The `EVP_MD`s. -/
inductive Digest
  | md5
  | sha1
  | sha256
  | sha384
  | sha512
  deriving DecidableEq, Repr

/-- The `EVP_CIPHER`s: AES, in blocks that are chained or not. -/
structure Cipher where
  keyBytes : Nat
  cbc : Bool
  deriving DecidableEq, Repr

/-- The functions that are called. Those that change a context answer with it as it is then; a result is there if they
answer 1. -/
structure Evp where
  MdCtx : Type
  CipherCtx : Type
  mdSize : Digest → Nat
  digestInit : Digest → Option MdCtx
  digestUpdate : MdCtx → List UInt8 → Bool × MdCtx
  digestFinal : MdCtx → Option (List UInt8) × MdCtx
  cipherInit : Cipher → List UInt8 → Option (List UInt8) → Bool → Option CipherCtx
  setPadding : CipherCtx → Bool → Option CipherCtx
  cipherUpdate : CipherCtx → List UInt8 → Option (List UInt8 × CipherCtx)
  cipherFinal : CipherCtx → Option (List UInt8)

namespace Evp
variable (evp : Evp)

def oneShot (cipher : Cipher) (key : List UInt8) (iv : Option (List UInt8)) (encrypt padding : Bool)
    (data : List UInt8) : Option (List UInt8) :=
  (evp.cipherInit cipher key iv encrypt).bind fun ctx =>
    (evp.setPadding ctx padding).bind fun ctx =>
      (evp.cipherUpdate ctx data).bind fun (produced, ctx) =>
        (evp.cipherFinal ctx).map fun finished => produced ++ finished

inductive Took (d : Digest) : evp.MdCtx → List UInt8 → Prop
  | init {ctx : evp.MdCtx} (h : evp.digestInit d = some ctx) : Took d ctx []
  | update {ctx : evp.MdCtx} {data : List UInt8} (h : Took d ctx data) (more : List UInt8) :
    Took d (evp.digestUpdate ctx more).2 (data ++ more)

/-- What the manual says of digests: a context is there to be had and takes data any number of times, the digest is that
of all the data and has the size that is told. -/
structure DigestDocumented (digest : Digest → List UInt8 → List UInt8) : Prop where
  init : ∀ d, (evp.digestInit d).isSome
  update : ∀ d ctx data more, evp.Took d ctx data → (evp.digestUpdate ctx more).1 = true
  final : ∀ d ctx data, evp.Took d ctx data → (evp.digestFinal ctx).1 = some (digest d data)
  size : ∀ d data, (digest d data).length = evp.mdSize d

/-- A cipher that chains reads a block of the vector it is given, which says nothing of its length. -/
def Readable (cipher : Cipher) (iv : Option (List UInt8)) : Prop := cipher.cbc = true → ∀ v ∈ iv, 16 ≤ v.length

/-- What the manual says of ciphers: encrypting adds a block at most, and decrypting is its inverse. -/
structure CipherDocumented : Prop where
  grows : ∀ cipher key iv padding data out, Readable cipher iv →
    evp.oneShot cipher key iv true padding data = some out →
    out.length ≤ data.length + 16
  inverse : ∀ cipher key iv padding data out, Readable cipher iv →
    evp.oneShot cipher key iv true padding data = some out → evp.oneShot cipher key iv false padding out = some data

end Evp

/-! ## The handlers -/

/-- The host side of an object: `algorithm_host`, `hash_host`, `key_host`, or one of another kind. -/
inductive Host (evp : Evp)
  | algorithm (chainingMode : WStr) (digest : Option Digest) (symmetric : Bool)
  | hash (ctx : evp.MdCtx) (digest : Digest)
  | key (secret : List UInt8) (chainingMode : WStr)
  | other

variable {evp : Evp}

def Host.algorithm? : Host evp → Option (WStr × Option Digest × Bool)
  | .algorithm chainingMode digest symmetric => some (chainingMode, digest, symmetric)
  | _ => none

def Host.hash? : Host evp → Option (evp.MdCtx × Digest)
  | .hash ctx digest => some (ctx, digest)
  | _ => none

def Host.key? : Host evp → Option (List UInt8 × WStr)
  | .key secret chainingMode => some (secret, chainingMode)
  | _ => none

structure State (evp : Evp) where
  /-- `objects_`, the newest first. -/
  objects : List (Addr × Host evp) := []
  mem : Memory := fun _ => 0

namespace State
variable (s : State evp)

/-- `objs.get_object<algorithm_host>(addr)`. -/
def algorithm? (addr : Addr) : Option (WStr × Option Digest × Bool) := (s.objects.lookup addr).bind Host.algorithm?

/-- `objs.get_object<hash_host>(addr)`. -/
def hash? (addr : Addr) : Option (evp.MdCtx × Digest) := (s.objects.lookup addr).bind Host.hash?

/-- `objs.get_object<key_host>(addr)`. -/
def key? (addr : Addr) : Option (List UInt8 × WStr) := (s.objects.lookup addr).bind Host.key?

/-- `make_object`, at the body that it found room for. -/
def makeObject (addr : Addr) (host : Host evp) : State evp := { s with objects := (addr, host) :: s.objects }

def setHost (addr : Addr) (host : Host evp) : State evp := { s with objects := replace s.objects addr host }

def write (addr : Addr) (bytes : List UInt8) : State evp := { s with mem := writeMem s.mem addr bytes }

def Fresh (addr : Addr) : Prop := addr ∉ s.objects.map Prod.fst

instance (addr : Addr) : Decidable (s.Fresh addr) := inferInstanceAs (Decidable (¬ _))

end State

def wide (s : List Char) : WStr := widenString (ascii s)

def digestFor (id : WStr) : Option Digest :=
  if id = wide ['M', 'D', '5'] then some .md5
  else if id = wide ['S', 'H', 'A', '1'] then some .sha1
  else if id = wide ['S', 'H', 'A', '2', '5', '6'] then some .sha256
  else if id = wide ['S', 'H', 'A', '3', '8', '4'] then some .sha384
  else if id = wide ['S', 'H', 'A', '5', '1', '2'] then some .sha512
  else none

def chainingModeCbc : WStr := wide ['C', 'h', 'a', 'i', 'n', 'i', 'n', 'g', 'M', 'o', 'd', 'e', 'C', 'B', 'C']
def chainingModeEcb : WStr := wide ['C', 'h', 'a', 'i', 'n', 'i', 'n', 'g', 'M', 'o', 'd', 'e', 'E', 'C', 'B']

def cipherFor (chainingMode : WStr) (keyBytes : Nat) : Option Cipher :=
  let cbc := decide (chainingMode ≠ chainingModeEcb)
  if keyBytes = 16 ∨ keyBytes = 24 ∨ keyBytes = 32 then some ⟨keyBytes, cbc⟩ else none

def propertyObjectLength : WStr := wide ['O', 'b', 'j', 'e', 'c', 't', 'L', 'e', 'n', 'g', 't', 'h']
def propertyHashLength : WStr :=
  wide ['H', 'a', 's', 'h', 'D', 'i', 'g', 'e', 's', 't', 'L', 'e', 'n', 'g', 't', 'h']
def propertyChainingMode : WStr := wide ['C', 'h', 'a', 'i', 'n', 'i', 'n', 'g', 'M', 'o', 'd', 'e']
def propertyBlockLength : WStr := wide ['B', 'l', 'o', 'c', 'k', 'L', 'e', 'n', 'g', 't', 'h']

def objectLength : Nat := 0x200
def aesBlockLength : Nat := 16

def readBytes (mem : Memory) (addr : Addr) (size : Nat) : List UInt8 :=
  if addr ≠ 0 ∧ size ≠ 0 then readMem mem addr size else List.replicate size 0

def bCryptOpenAlgorithmProvider (s : State evp) (addr algorithm algId : Addr) : Status × State evp :=
  if algorithm = 0 then (.invalidParameter, s)
  else
    let id := readWstring s.mem algId
    let digest := digestFor id
    let symmetric := decide (id = wide ['A', 'E', 'S'])
    if digest = none ∧ ¬ symmetric then (.notSupported, s)
    else
      let s := s.makeObject addr (.algorithm chainingModeCbc digest symmetric)
      (.success, s.write algorithm (Bytes.ofNat 8 addr))

def bCryptCloseAlgorithmProvider (s : State evp) (algorithm : Addr) : Status × State evp :=
  (if (s.algorithm? algorithm).isSome then .success else .invalidHandle, s)

/-- `result_size.write(size)`, if there is a `result_size`. -/
def State.writeSize (s : State evp) (resultSize : Addr) (size : Nat) : State evp :=
  if resultSize = 0 then s else s.write resultSize (Bytes.ofNat 4 size)

def writeDword (s : State evp) (output : Addr) (outputSize : Nat) (resultSize : Addr) (value : Nat) :
    Status × State evp :=
  let s := s.writeSize resultSize 4
  if outputSize < 4 then (.bufferTooSmall, s) else (.success, s.write output (Bytes.ofNat 4 value))

def bCryptGetProperty (s : State evp) (handle property output : Addr) (outputSize : Nat) (resultSize : Addr) :
    Status × State evp :=
  match s.algorithm? handle with
  | none => (.invalidHandle, s)
  | some (chainingMode, digest, symmetric) =>
    let name := readWstring s.mem property
    if name = propertyObjectLength then writeDword s output outputSize resultSize objectLength
    else if name = propertyHashLength ∧ digest.isSome then
      writeDword s output outputSize resultSize ((digest.map evp.mdSize).getD 0)
    else if name = propertyBlockLength ∧ symmetric then writeDword s output outputSize resultSize aesBlockLength
    else if name = propertyChainingMode then
      let bytes := (chainingMode.length + 1) * 2
      let s := s.writeSize resultSize bytes
      if outputSize < bytes then (.bufferTooSmall, s)
      else (.success, s.write output (encodeAll (chainingMode ++ [0])))
    else (.notSupported, s)

def bCryptSetProperty (s : State evp) (handle property input : Addr) : Status × State evp :=
  match s.algorithm? handle with
  | none => (.invalidHandle, s)
  | some (_, digest, symmetric) =>
    if readWstring s.mem property ≠ propertyChainingMode then (.notSupported, s)
    else (.success, s.setHost handle (.algorithm (readWstring s.mem input) digest symmetric))

def bCryptCreateHash (s : State evp) (addr algorithm hash secret : Addr) (secretSize : Nat) : Status × State evp :=
  match s.algorithm? algorithm with
  | some (_, some digest, _) =>
    if hash = 0 then (.invalidParameter, s)
    else if secret ≠ 0 ∧ secretSize ≠ 0 then (.notSupported, s)
    else
      match evp.digestInit digest with
      | none => (.insufficientResources, s)
      | some ctx => (.success, (s.makeObject addr (.hash ctx digest)).write hash (Bytes.ofNat 8 addr))
  | _ => (.invalidHandle, s)

def bCryptHashData (s : State evp) (hash input : Addr) (inputSize : Nat) : Status × State evp :=
  match s.hash? hash with
  | none => (.invalidHandle, s)
  | some (ctx, digest) =>
    let bytes := readBytes s.mem input inputSize
    if bytes = [] then (.success, s)
    else
      let (ok, ctx) := evp.digestUpdate ctx bytes
      (if ok then .success else .unsuccessful, s.setHost hash (.hash ctx digest))

def bCryptFinishHash (s : State evp) (hash output : Addr) (outputSize : Nat) : Status × State evp :=
  match s.hash? hash with
  | none => (.invalidHandle, s)
  | some (ctx, digest) =>
    if outputSize < evp.mdSize digest then (.bufferTooSmall, s)
    else
      match evp.digestFinal ctx with
      | (none, ctx) => (.unsuccessful, s.setHost hash (.hash ctx digest))
      | (some bytes, ctx) => (.success, (s.setHost hash (.hash ctx digest)).write output bytes)

def bCryptDestroyHash (s : State evp) (hash : Addr) : Status × State evp :=
  (if (s.hash? hash).isSome then .success else .invalidHandle, s)

def bCryptGenerateSymmetricKey (s : State evp) (addr algorithm key secret : Addr) (secretSize : Nat) :
    Status × State evp :=
  match s.algorithm? algorithm with
  | some (chainingMode, _, true) =>
    if key = 0 ∨ secret = 0 ∨ secretSize = 0 then (.invalidParameter, s)
    else if cipherFor chainingMode secretSize = none then (.invalidParameter, s)
    else
      let host := Host.key (readBytes s.mem secret secretSize) chainingMode
      (.success, (s.makeObject addr host).write key (Bytes.ofNat 8 addr))
  | _ => (.invalidHandle, s)

def bCryptDestroyKey (s : State evp) (key : Addr) : Status × State evp :=
  (if (s.key? key).isSome then .success else .invalidHandle, s)

/-- The calls of OpenSSL in `transform`, where the bytes are counted by an `int`. -/
def Evp.transform (evp : Evp) (cipher : Cipher) (secret vector : List UInt8) (encrypt padding : Bool)
    (plain : List UInt8) : Option (List UInt8) :=
  if 2 ^ 31 ≤ plain.length then none
  else evp.oneShot cipher secret (if vector = [] then none else some vector) encrypt padding plain

def transform (s : State evp) (key input : Addr) (inputSize : Nat) (iv : Addr) (ivSize : Nat) (output : Addr)
    (outputSize : Nat) (resultSize : Addr) (flags : BitVec 32) (encrypt : Bool) : Status × State evp :=
  match s.key? key with
  | none => (.invalidHandle, s)
  | some (secret, chainingMode) =>
    match cipherFor chainingMode secret.length with
    | none => (.notSupported, s)
    | some cipher =>
      let plain := readBytes s.mem input inputSize
      let vector := readBytes s.mem iv ivSize
      let padding := flags &&& 1 ≠ 0
      match evp.transform cipher secret vector encrypt padding plain with
      | none => (.unsuccessful, s)
      | some result =>
        let s := s.writeSize resultSize result.length
        if output = 0 then (.success, s)
        else if outputSize < result.length then (.bufferTooSmall, s)
        else (.success, s.write output result)

def bCryptEncrypt (s : State evp) (key input : Addr) (inputSize : Nat) (iv : Addr) (ivSize : Nat) (output : Addr)
    (outputSize : Nat) (resultSize : Addr) (flags : BitVec 32) : Status × State evp :=
  transform s key input inputSize iv ivSize output outputSize resultSize flags true

def bCryptDecrypt (s : State evp) (key input : Addr) (inputSize : Nat) (iv : Addr) (ivSize : Nat) (output : Addr)
    (outputSize : Nat) (resultSize : Addr) (flags : BitVec 32) : Status × State evp :=
  transform s key input inputSize iv ivSize output outputSize resultSize flags false

def bCryptImportKeyPair (s : State evp) (key : Addr) : Status × State evp :=
  (.notSupported, if key = 0 then s else s.write key (Bytes.ofNat 8 0))

def bCryptVerifySignature (s : State evp) : Status × State evp := (.invalidSignature, s)

inductive Call
  | bCryptOpenAlgorithmProvider (addr algorithm algId : Addr)
  | bCryptCloseAlgorithmProvider (algorithm : Addr)
  | bCryptGetProperty (handle property output : Addr) (outputSize : Nat) (resultSize : Addr)
  | bCryptSetProperty (handle property input : Addr)
  | bCryptCreateHash (addr algorithm hash secret : Addr) (secretSize : Nat)
  | bCryptHashData (hash input : Addr) (inputSize : Nat)
  | bCryptFinishHash (hash output : Addr) (outputSize : Nat)
  | bCryptDestroyHash (hash : Addr)
  | bCryptGenerateSymmetricKey (addr algorithm key secret : Addr) (secretSize : Nat)
  | bCryptDestroyKey (key : Addr)
  | transform (key input : Addr) (inputSize : Nat) (iv : Addr) (ivSize : Nat) (output : Addr) (outputSize : Nat)
    (resultSize : Addr) (flags : BitVec 32) (encrypt : Bool)
  | bCryptImportKeyPair (key : Addr)
  | bCryptVerifySignature
  | createOther (addr : Addr)
  | writeMem (addr : Addr) (bytes : List UInt8)

def Call.run (s : State evp) : Call → Status × State evp
  | .bCryptOpenAlgorithmProvider addr algorithm algId => Cng.bCryptOpenAlgorithmProvider s addr algorithm algId
  | .bCryptCloseAlgorithmProvider algorithm => Cng.bCryptCloseAlgorithmProvider s algorithm
  | .bCryptGetProperty handle property output outputSize resultSize =>
    Cng.bCryptGetProperty s handle property output outputSize resultSize
  | .bCryptSetProperty handle property input => Cng.bCryptSetProperty s handle property input
  | .bCryptCreateHash addr algorithm hash secret secretSize =>
    Cng.bCryptCreateHash s addr algorithm hash secret secretSize
  | .bCryptHashData hash input inputSize => Cng.bCryptHashData s hash input inputSize
  | .bCryptFinishHash hash output outputSize => Cng.bCryptFinishHash s hash output outputSize
  | .bCryptDestroyHash hash => Cng.bCryptDestroyHash s hash
  | .bCryptGenerateSymmetricKey addr algorithm key secret secretSize =>
    Cng.bCryptGenerateSymmetricKey s addr algorithm key secret secretSize
  | .bCryptDestroyKey key => Cng.bCryptDestroyKey s key
  | .transform key input inputSize iv ivSize output outputSize resultSize flags encrypt =>
    Cng.transform s key input inputSize iv ivSize output outputSize resultSize flags encrypt
  | .bCryptImportKeyPair key => Cng.bCryptImportKeyPair s key
  | .bCryptVerifySignature => Cng.bCryptVerifySignature s
  | .createOther addr => (.success, s.makeObject addr .other)
  | .writeMem addr bytes => (.success, s.write addr bytes)

def step (s : State evp) (c : Call) : Option (State evp) := some (c.run s).2

def Call.Ok (s : State evp) : Call → Prop
  | .bCryptOpenAlgorithmProvider addr _ _ | .bCryptCreateHash addr _ _ _ _
  | .bCryptGenerateSymmetricKey addr _ _ _ _ | .createOther addr => s.Fresh addr
  | _ => True

/-! ## What the calls do to objects -/

variable {s s' : State evp}

@[simp] theorem objects_write (s : State evp) (addr : Addr) (bytes : List UInt8) :
    (s.write addr bytes).objects = s.objects := rfl

@[simp] theorem objects_writeSize (s : State evp) (resultSize : Addr) (size : Nat) :
    (s.writeSize resultSize size).objects = s.objects := by
  unfold State.writeSize
  split <;> rfl

def Call.target : Call → Option Addr
  | .bCryptHashData hash _ _ | .bCryptFinishHash hash _ _ => some hash
  | _ => none

/-- No object goes, and one that is there only changes as an algorithm does that is given a chaining mode, or as the
hash does that is the target. -/
inductive Effect (s s' : State evp) (target : Option Addr) : Prop
  | same (h : s'.objects = s.objects)
  | made {addr : Addr} {host : Host evp} (hfresh : s.Fresh addr) (h : s'.objects = (addr, host) :: s.objects)
  | mode {addr : Addr} {algorithm : WStr × Option Digest × Bool} {chainingMode : WStr}
    (hold : s.algorithm? addr = some algorithm)
    (h : s'.objects = replace s.objects addr (.algorithm chainingMode algorithm.2.1 algorithm.2.2))
  | context {addr : Addr} {ctx ctx' : evp.MdCtx} {digest : Digest} (htarget : target = some addr)
    (hold : s.hash? addr = some (ctx, digest)) (h : s'.objects = replace s.objects addr (.hash ctx' digest))

theorem writeDword_objects (s : State evp) (output : Addr) (outputSize : Nat) (resultSize : Addr) (value : Nat) :
    (writeDword s output outputSize resultSize value).2.objects = s.objects := by
  unfold writeDword
  dsimp only
  split <;> simp

theorem bCryptGetProperty_objects (s : State evp) (handle property output : Addr) (outputSize : Nat)
    (resultSize : Addr) : (bCryptGetProperty s handle property output outputSize resultSize).2.objects = s.objects := by
  unfold bCryptGetProperty
  split
  · rfl
  · dsimp only
    split
    · exact writeDword_objects ..
    · split
      · exact writeDword_objects ..
      · split
        · exact writeDword_objects ..
        · split
          · split <;> simp
          · rfl

theorem transform_objects (s : State evp) (key input : Addr) (inputSize : Nat) (iv : Addr) (ivSize : Nat)
    (output : Addr) (outputSize : Nat) (resultSize : Addr) (flags : BitVec 32) (encrypt : Bool) :
    (transform s key input inputSize iv ivSize output outputSize resultSize flags encrypt).2.objects = s.objects := by
  unfold transform
  split
  · rfl
  · split
    · rfl
    · dsimp only
      split
      · rfl
      · split
        · exact objects_writeSize ..
        · split <;> simp

theorem Call.effect (c : Call) (hok : c.Ok s) : Effect s (c.run s).2 c.target := by
  cases c with
  | bCryptOpenAlgorithmProvider addr algorithm algId =>
    show Effect s (Cng.bCryptOpenAlgorithmProvider s addr algorithm algId).2 none
    unfold Cng.bCryptOpenAlgorithmProvider
    split
    · exact .same rfl
    · dsimp only
      split
      · exact .same rfl
      · exact .made hok rfl
  | bCryptGetProperty handle property output outputSize resultSize =>
    exact .same (bCryptGetProperty_objects ..)
  | bCryptSetProperty handle property input =>
    show Effect s (Cng.bCryptSetProperty s handle property input).2 none
    unfold Cng.bCryptSetProperty
    split
    · exact .same rfl
    · rename_i halgorithm
      split
      · exact .same rfl
      · exact .mode halgorithm rfl
  | bCryptCreateHash addr algorithm hash secret secretSize =>
    show Effect s (Cng.bCryptCreateHash s addr algorithm hash secret secretSize).2 none
    unfold Cng.bCryptCreateHash
    split
    · split
      · exact .same rfl
      · split
        · exact .same rfl
        · split
          · exact .same rfl
          · exact .made hok rfl
    · exact .same rfl
  | bCryptHashData hash input inputSize =>
    show Effect s (Cng.bCryptHashData s hash input inputSize).2 (some hash)
    unfold Cng.bCryptHashData
    split
    · exact .same rfl
    · rename_i hhash
      dsimp only
      split
      · exact .same rfl
      · exact .context rfl hhash rfl
  | bCryptFinishHash hash output outputSize =>
    show Effect s (Cng.bCryptFinishHash s hash output outputSize).2 (some hash)
    unfold Cng.bCryptFinishHash
    split
    · exact .same rfl
    · rename_i hhash
      split
      · exact .same rfl
      · split
        · exact .context rfl hhash rfl
        · exact .context rfl hhash rfl
  | bCryptGenerateSymmetricKey addr algorithm key secret secretSize =>
    show Effect s (Cng.bCryptGenerateSymmetricKey s addr algorithm key secret secretSize).2 none
    unfold Cng.bCryptGenerateSymmetricKey
    split
    · split
      · exact .same rfl
      · split
        · exact .same rfl
        · exact .made hok rfl
    · exact .same rfl
  | transform key input inputSize iv ivSize output outputSize resultSize flags encrypt =>
    exact .same (transform_objects ..)
  | bCryptImportKeyPair key =>
    show Effect s (Cng.bCryptImportKeyPair s key).2 none
    unfold Cng.bCryptImportKeyPair
    dsimp only
    split <;> exact .same rfl
  | createOther addr => exact .made hok rfl
  | bCryptCloseAlgorithmProvider algorithm => exact .same rfl
  | bCryptDestroyHash hash => exact .same rfl
  | bCryptDestroyKey key => exact .same rfl
  | bCryptVerifySignature => exact .same rfl
  | writeMem addr bytes => exact .same rfl

variable {addr : Addr}

theorem algorithm?_eq_some {a : WStr × Option Digest × Bool} (h : s.algorithm? addr = some a) :
    s.objects.lookup addr = some (.algorithm a.1 a.2.1 a.2.2) := by
  obtain ⟨host, hlookup, hhost⟩ := Option.bind_eq_some_iff.mp h
  cases host with
  | algorithm =>
    obtain rfl := Option.some.inj hhost
    exact hlookup
  | hash => cases hhost
  | key => cases hhost
  | other => cases hhost

theorem hash?_eq_some {x : evp.MdCtx × Digest} (h : s.hash? addr = some x) :
    s.objects.lookup addr = some (.hash x.1 x.2) := by
  obtain ⟨host, hlookup, hhost⟩ := Option.bind_eq_some_iff.mp h
  cases host with
  | hash =>
    obtain rfl := Option.some.inj hhost
    exact hlookup
  | algorithm => cases hhost
  | key => cases hhost
  | other => cases hhost

theorem key?_eq_some {x : List UInt8 × WStr} (h : s.key? addr = some x) :
    s.objects.lookup addr = some (.key x.1 x.2) := by
  obtain ⟨host, hlookup, hhost⟩ := Option.bind_eq_some_iff.mp h
  cases host with
  | key =>
    obtain rfl := Option.some.inj hhost
    exact hlookup
  | algorithm => cases hhost
  | hash => cases hhost
  | other => cases hhost

/-- An object that is no algorithm, and no hash that is the target, stays as it is. -/
theorem Effect.lookup {target : Option Addr} {host : Host evp} (h : Effect s s' target)
    (hlookup : s.objects.lookup addr = some host) (halgorithm : host.algorithm? = none)
    (hhash : host.hash? = none ∨ target ≠ some addr) : s'.objects.lookup addr = some host := by
  cases h with
  | same h =>
    rw [h]
    exact hlookup
  | @made made _ hfresh h =>
    have hother : (addr == made) = false := by
      refine beq_false_of_ne ?_
      rintro rfl
      exact hfresh (List.mem_map.mpr ⟨_, mem_of_lookup hlookup, rfl⟩)
    rw [h, List.lookup_cons, hother]
    exact hlookup
  | @mode changed _ _ hold h =>
    have hother : addr ≠ changed := by
      rintro rfl
      obtain rfl := Option.some.inj (hlookup.symm.trans (algorithm?_eq_some hold))
      cases halgorithm
    rw [h, lookup_replace, if_neg hother]
    exact hlookup
  | @context changed _ _ _ htarget hold h =>
    have hother : addr ≠ changed := by
      rintro rfl
      rcases hhash with hnone | hne
      · obtain rfl := Option.some.inj (hlookup.symm.trans (hash?_eq_some hold))
        cases hnone
      · exact hne htarget
    rw [h, lookup_replace, if_neg hother]
    exact hlookup

theorem hash?_run {c : Call} {x : evp.MdCtx × Digest} (hok : c.Ok s) (hne : c.target ≠ some addr)
    (h : s.hash? addr = some x) : (c.run s).2.hash? addr = some x := by
  unfold State.hash?
  rw [(c.effect hok).lookup (hash?_eq_some h) rfl (.inr hne)]
  rfl

theorem key?_run {c : Call} {x : List UInt8 × WStr} (hok : c.Ok s) (h : s.key? addr = some x) :
    (c.run s).2.key? addr = some x := by
  unfold State.key?
  rw [(c.effect hok).lookup (key?_eq_some h) rfl (.inl rfl)]
  rfl

end Kernemul.Cng
