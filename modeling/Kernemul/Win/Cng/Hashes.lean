import Kernemul.Win.Cng.Handlers

/-!
# Hashing in many calls

The data of a hash comes in any number of calls, among those of other hashes. A ledger says of each hash what was hashed
with it so far, and what is written in the end is the digest of that.
-/

namespace Kernemul.Cng

open ByteMemory GuestStrings KeyedTable Text

variable {evp : Evp} {s s' : State evp}

/-- The algorithm and the data so far of each hash that is not finished. -/
abbrev Ledger := Addr → Option (Digest × List UInt8)

def Call.record (s : State evp) (L : Ledger) : Call → Ledger
  | .bCryptCreateHash addr algorithm hash secret secretSize =>
    if (Cng.bCryptCreateHash s addr algorithm hash secret secretSize).1 = .success then
      Function.update L addr (((s.algorithm? algorithm).bind fun a => a.2.1).map fun digest => (digest, []))
    else L
  | .bCryptHashData hash input inputSize =>
    if (Cng.bCryptHashData s hash input inputSize).1 = .success then
      Function.update L hash ((L hash).map fun p => (p.1, p.2 ++ readBytes s.mem input inputSize))
    else L
  | .bCryptFinishHash hash output outputSize =>
    if (Cng.bCryptFinishHash s hash output outputSize).1 = .success then Function.update L hash none else L
  | _ => L

def stepRecorded (p : State evp × Ledger) (c : Call) : Option (State evp × Ledger) :=
  some ((c.run p.1).2, c.record p.1 p.2)

def Books (s : State evp) (L : Ledger) : Prop :=
  ∀ hash d data, L hash = some (d, data) → ∃ ctx, s.hash? hash = some (ctx, d) ∧ evp.Took d ctx data

variable {hash : Addr}

theorem hash?_setHost {x : evp.MdCtx × Digest} (h : s.hash? hash = some x) (ctx : evp.MdCtx)
    (digest : Digest) : (s.setHost hash (.hash ctx digest)).hash? hash = some (ctx, digest) := by
  unfold State.hash? State.setHost
  rw [lookup_replace, if_pos rfl, hash?_eq_some h]
  rfl

variable {digest : Digest → List UInt8 → List UInt8} {data : List UInt8}

theorem bCryptHashData_eq (hdoc : evp.DigestDocumented digest)
    {ctx : evp.MdCtx} {d : Digest} (h : s.hash? hash = some (ctx, d)) (htook : evp.Took d ctx data)
    (input : Addr) (inputSize : Nat) :
    bCryptHashData s hash input inputSize = (.success,
      if readBytes s.mem input inputSize = [] then s
      else s.setHost hash (.hash (evp.digestUpdate ctx (readBytes s.mem input inputSize)).2 d)) := by
  unfold bCryptHashData
  rw [h]
  dsimp only
  split
  · rfl
  · rw [hdoc.update d ctx data _ htook]
    rfl

theorem bCryptFinishHash_eq (hdoc : evp.DigestDocumented digest)
    {ctx : evp.MdCtx} {d : Digest} (h : s.hash? hash = some (ctx, d)) (htook : evp.Took d ctx data)
    (output : Addr) (outputSize : Nat) :
    bCryptFinishHash s hash output outputSize =
      if outputSize < evp.mdSize d then (.bufferTooSmall, s)
      else (.success, (s.setHost hash (.hash (evp.digestFinal ctx).2 d)).write output (digest d data)) := by
  unfold bCryptFinishHash
  rw [h]
  dsimp only
  split
  · rfl
  · have hfinal := hdoc.final d ctx data htook
    split
    · rename_i heq
      rw [heq] at hfinal
      cases hfinal
    · rename_i heq
      rw [heq] at hfinal ⊢
      obtain rfl := Option.some.inj hfinal
      rfl

variable {L : Ledger}

theorem Books.other {c : Call} (h : Books s L) (hok : c.Ok s) {d : Digest}
    (hne : c.target ≠ some hash) (hL : L hash = some (d, data)) :
    ∃ ctx, (c.run s).2.hash? hash = some (ctx, d) ∧ evp.Took d ctx data := by
  obtain ⟨ctx, hhash, htook⟩ := h hash d data hL
  exact ⟨ctx, hash?_run hok hne hhash, htook⟩

theorem bCryptCreateHash_success {addr algorithm secret : Addr} {secretSize : Nat}
    (h : (bCryptCreateHash s addr algorithm hash secret secretSize).1 = .success) :
    ∃ chainingMode digest symmetric ctx, s.algorithm? algorithm = some (chainingMode, some digest, symmetric) ∧
      evp.digestInit digest = some ctx ∧
      (bCryptCreateHash s addr algorithm hash secret secretSize).2.objects = (addr, .hash ctx digest) :: s.objects := by
  unfold bCryptCreateHash at h ⊢
  split at h
  · rename_i chainingMode digest symmetric halgorithm
    split at h
    · cases h
    · rename_i hhash
      split at h
      · cases h
      · rename_i hsecret
        split at h
        · cases h
        · rename_i ctx hinit
          refine ⟨chainingMode, digest, symmetric, ctx, halgorithm, hinit, ?_⟩
          rw [if_neg hhash, if_neg hsecret]
          rfl
  · cases h

theorem Books.createHash (h : Books s L) {addr algorithm out secret : Addr} {secretSize : Nat} (hok : s.Fresh addr) :
    Books (bCryptCreateHash s addr algorithm out secret secretSize).2
      ((Call.bCryptCreateHash addr algorithm out secret secretSize).record s L) := by
  intro hash d data hL
  have hother (hold : L hash = some (d, data)) :
      ∃ ctx, (bCryptCreateHash s addr algorithm out secret secretSize).2.hash? hash = some (ctx, d) ∧
        evp.Took d ctx data := h.other (c := .bCryptCreateHash addr algorithm out secret secretSize) hok nofun hold
  unfold Call.record at hL
  dsimp only at hL
  split at hL
  · rename_i hsuccess
    obtain ⟨chainingMode, digest, symmetric, ctx, halgorithm, hinit, hobjects⟩ := bCryptCreateHash_success hsuccess
    by_cases hne : hash = addr
    · subst hne
      rw [Function.update_self, halgorithm] at hL
      obtain ⟨rfl, rfl⟩ := Prod.mk.inj (Option.some.inj hL)
      refine ⟨ctx, ?_, .init hinit⟩
      unfold State.hash?
      rw [hobjects, List.lookup_cons, beq_self_eq_true]
      rfl
    · rw [Function.update_of_ne hne] at hL
      exact hother hL
  · exact hother hL

theorem Books.hashData (hdoc : evp.DigestDocumented digest) (h : Books s L) (hash' input : Addr) (inputSize : Nat) :
    Books (bCryptHashData s hash' input inputSize).2 ((Call.bCryptHashData hash' input inputSize).record s L) := by
  intro hash d data hL
  by_cases hne : hash = hash'
  · subst hne
    cases hold : L hash with
    | none =>
      unfold Call.record at hL
      dsimp only at hL
      split at hL
      · rw [Function.update_self, hold] at hL
        cases hL
      · rw [hold] at hL
        cases hL
    | some p =>
      obtain ⟨d₀, data₀⟩ := p
      obtain ⟨ctx, hhash, htook⟩ := h hash d₀ data₀ hold
      have heq := bCryptHashData_eq hdoc hhash htook input inputSize
      have hsuccess : (bCryptHashData s hash input inputSize).1 = .success := congrArg Prod.fst heq
      unfold Call.record at hL
      dsimp only at hL
      rw [if_pos hsuccess, Function.update_self, hold] at hL
      obtain ⟨rfl, rfl⟩ := Prod.mk.inj (Option.some.inj hL)
      rw [heq]
      by_cases hempty : readBytes s.mem input inputSize = []
      · refine ⟨ctx, ?_, ?_⟩
        · rw [if_pos hempty]
          exact hhash
        · rw [hempty, List.append_nil]
          exact htook
      · rw [if_neg hempty]
        exact ⟨_, hash?_setHost hhash _ _, htook.update _⟩
  · have hL' : L hash = some (d, data) := by
      unfold Call.record at hL
      dsimp only at hL
      split at hL
      · rwa [Function.update_of_ne hne] at hL
      · exact hL
    exact h.other (c := .bCryptHashData hash' input inputSize) trivial (fun heq => hne (Option.some.inj heq).symm) hL'

theorem Books.finishHash (hdoc : evp.DigestDocumented digest)
    (h : Books s L) (hash' output : Addr) (outputSize : Nat) :
    Books (bCryptFinishHash s hash' output outputSize).2
      ((Call.bCryptFinishHash hash' output outputSize).record s L) := by
  intro hash d data hL
  unfold Call.record at hL
  dsimp only at hL
  by_cases hne : hash = hash'
  · subst hne
    split at hL
    · rw [Function.update_self] at hL
      cases hL
    · rename_i hfailed
      obtain ⟨ctx, hhash, htook⟩ := h hash d data hL
      have heq := bCryptFinishHash_eq hdoc hhash htook output outputSize
      by_cases hsmall : outputSize < evp.mdSize d
      · rw [heq, if_pos hsmall]
        exact ⟨ctx, hhash, htook⟩
      · rw [heq, if_neg hsmall] at hfailed
        exact absurd rfl hfailed
  · have hL' : L hash = some (d, data) := by
      split at hL
      · rwa [Function.update_of_ne hne] at hL
      · exact hL
    have htarget : some hash' ≠ some hash := fun heq => hne (Option.some.inj heq).symm
    exact h.other (c := .bCryptFinishHash hash' output outputSize) trivial htarget hL'

theorem Books.step (hdoc : evp.DigestDocumented digest) {c : Call}
    (h : Books s L) (hok : c.Ok s) : Books (c.run s).2 (c.record s L) := by
  cases c with
  | bCryptCreateHash addr algorithm hash secret secretSize => exact h.createHash hok
  | bCryptHashData hash input inputSize => exact h.hashData hdoc hash input inputSize
  | bCryptFinishHash hash output outputSize => exact h.finishHash hdoc hash output outputSize
  | _ =>
    intro hash d data hL
    exact h.other hok nofun hL

/-- What can be done with the hashes of a ledger: they take more data, and what is written for a hash that is finished
is the digest of all its data. -/
structure Hashes (digest : Digest → List UInt8 → List UInt8) (s : State evp) (L : Ledger) : Prop where
  takes : ∀ hash d data, L hash = some (d, data) → ∀ input inputSize,
    (bCryptHashData s hash input inputSize).1 = .success ∧ (bCryptHashData s hash input inputSize).2.mem = s.mem
  waits : ∀ hash d data, L hash = some (d, data) → ∀ output outputSize, outputSize < evp.mdSize d →
    bCryptFinishHash s hash output outputSize = (.bufferTooSmall, s)
  finishes : ∀ hash d data, L hash = some (d, data) → ∀ output outputSize, evp.mdSize d ≤ outputSize →
    (bCryptFinishHash s hash output outputSize).1 = .success ∧
      (bCryptFinishHash s hash output outputSize).2.mem = writeMem s.mem output (digest d data)

theorem Books.hashes (hdoc : evp.DigestDocumented digest) (h : Books s L) : Hashes digest s L := by
  refine ⟨?_, ?_, ?_⟩
  · intro hash d data hL input inputSize
    obtain ⟨ctx, hhash, htook⟩ := h hash d data hL
    rw [bCryptHashData_eq hdoc hhash htook]
    refine ⟨rfl, ?_⟩
    dsimp only
    split <;> rfl
  · intro hash d data hL output outputSize hsmall
    obtain ⟨ctx, hhash, htook⟩ := h hash d data hL
    rw [bCryptFinishHash_eq hdoc hhash htook, if_pos hsmall]
  · intro hash d data hL output outputSize hroom
    obtain ⟨ctx, hhash, htook⟩ := h hash d data hL
    rw [bCryptFinishHash_eq hdoc hhash htook, if_neg (Nat.not_lt.mpr hroom)]
    exact ⟨rfl, rfl⟩

/-- In every run, however the data of the hashes is cut into calls and their calls alternate. -/
theorem hashes_of_run {digest : Digest → List UInt8 → List UInt8} (hdoc : evp.DigestDocumented digest) {mem : Memory}
    {calls : List Call} {L : Ledger}
    (h : Run.Steps stepRecorded (fun p c => c.Ok p.1) ({ mem := mem }, fun _ => none) calls (s, L)) :
    Hashes digest s L := by
  have hbooks : Books s L := by
    refine h.invariant (P := fun p : State evp × Ledger => Books p.1 p.2) ?_ fun _ _ _ => nofun
    intro p c p' hP hok hstep
    obtain rfl := Option.some.inj hstep
    exact hP.step hdoc hok
  exact hbooks.hashes hdoc

instance (s : State evp) : ∀ c : Call, Decidable (c.Ok s)
  | .bCryptOpenAlgorithmProvider addr _ _ | .bCryptCreateHash addr _ _ _ _
  | .bCryptGenerateSymmetricKey addr _ _ _ _ | .createOther addr => inferInstanceAs (Decidable (s.Fresh addr))
  | .bCryptCloseAlgorithmProvider .. | .bCryptGetProperty .. | .bCryptSetProperty .. | .bCryptHashData ..
  | .bCryptFinishHash .. | .bCryptDestroyHash .. | .bCryptDestroyKey .. | .transform .. | .bCryptImportKeyPair ..
  | .bCryptVerifySignature | .writeMem .. => isTrue trivial

/-- The MD5 of `abc`. -/
def abcMd5 : List UInt8 :=
  [0x90, 0x01, 0x50, 0x98, 0x3c, 0xd2, 0x4f, 0xb0, 0xd6, 0x96, 0x3f, 0x7d, 0x28, 0xe1, 0x7f, 0x72]

/-- A block and what AES makes of it with the key of 16 bytes from 0 on. -/
def plainBlock : List UInt8 :=
  [0x00, 0x11, 0x22, 0x33, 0x44, 0x55, 0x66, 0x77, 0x88, 0x99, 0xaa, 0xbb, 0xcc, 0xdd, 0xee, 0xff]
def cipherBlock : List UInt8 :=
  [0x69, 0xc4, 0xe0, 0xd8, 0x6a, 0x7b, 0x04, 0x30, 0xd8, 0xcd, 0xb7, 0x80, 0x70, 0xb4, 0xc5, 0x5a]

def swapBlocks (data : List UInt8) : List UInt8 :=
  if data = plainBlock then cipherBlock else if data = cipherBlock then plainBlock else data

def digestSize : Digest → Nat
  | .md5 => 16
  | .sha1 => 20
  | .sha256 => 32
  | .sha384 => 48
  | .sha512 => 64

def knownDigest (d : Digest) (data : List UInt8) : List UInt8 :=
  if d = .md5 ∧ data = [0x61, 0x62, 0x63] then abcMd5 else List.replicate (digestSize d) 0

/-- Functions that know the digest of one text and the cipher of one block. -/
def knownEvp : Evp where
  MdCtx := Digest × List UInt8
  CipherCtx := Unit
  mdSize := digestSize
  digestInit d := some (d, [])
  digestUpdate ctx more := (true, (ctx.1, ctx.2 ++ more))
  digestFinal ctx := (some (knownDigest ctx.1 ctx.2), ctx)
  cipherInit _ _ _ _ := some ()
  setPadding ctx _ := some ctx
  cipherUpdate ctx data := some (swapBlocks data, ctx)
  cipherFinal _ := some []

theorem knownEvp_took {d : Digest} {ctx : knownEvp.MdCtx} (h : knownEvp.Took d ctx data) :
    ctx = (d, data) := by
  induction h with
  | init h => exact (Option.some.inj h).symm
  | update _ more ih =>
    rw [ih]
    rfl

theorem knownEvp_digests : knownEvp.DigestDocumented knownDigest := by
  refine ⟨fun _ => rfl, fun _ _ _ _ _ => rfl, ?_, ?_⟩
  · intro d ctx data htook
    rw [knownEvp_took htook]
    rfl
  · intro d data
    unfold knownDigest
    split_ifs with habc
    · rw [habc.1]
      rfl
    · exact List.length_replicate

def takeTurns : List Call :=
  [.writeMem 0x100 (encodeAll (wide ['M', 'D', '5'])), .writeMem 0x300 [0x61, 0x62, 0x63],
    .bCryptOpenAlgorithmProvider 0x10 0x200 0x100, .bCryptCreateHash 0x20 0x10 0x208 0 0,
    .bCryptCreateHash 0x30 0x10 0x210 0 0, .bCryptHashData 0x20 0x300 1, .bCryptHashData 0x30 0x301 1,
    .bCryptCloseAlgorithmProvider 0x10, .bCryptHashData 0x20 0x301 2]

theorem takeTurns_hashes : ∃ (s : State knownEvp) (L : Ledger),
    Run.Steps stepRecorded (fun p c => c.Ok p.1) ({}, fun _ => none) takeTurns (s, L) ∧
      L 0x20 = some (.md5, [0x61, 0x62, 0x63]) ∧ Hashes knownDigest s L := by
  have hexec : (Run.exec stepRecorded (fun (p : State knownEvp × Ledger) c => decide (c.Ok p.1))
      ({}, fun _ => none) takeTurns).map (fun p => p.2 0x20) = some (some (.md5, [0x61, 0x62, 0x63])) := by
    decide +kernel
  obtain ⟨⟨s, L⟩, hs, hL⟩ := Option.map_eq_some_iff.mp hexec
  have hrun : Run.Steps stepRecorded (fun (p : State knownEvp × Ledger) c => c.Ok p.1)
      ({ mem := fun _ => 0 }, fun _ => none) takeTurns (s, L) := Run.Steps.of_exec (fun _ _ => of_decide_eq_true) hs
  exact ⟨s, L, hrun, hL, hashes_of_run knownEvp_digests hrun⟩

end Kernemul.Cng
