import Kernemul.Win.Cng.Hashes

/-!
# Encrypting and decrypting

A key is an object of its own, with the chaining mode that its provider had then. What is encrypted with it can be
decrypted at any time after.
-/

namespace Kernemul.Cng

open ByteMemory GuestStrings Text

variable {evp : Evp} {s s' : State evp}

@[simp] theorem length_readBytes (mem : Memory) (addr : Addr) (size : Nat) :
    (readBytes mem addr size).length = size := by
  unfold readBytes
  split
  · exact length_readMem ..
  · exact List.length_replicate

theorem readBytes_of_ne {addr : Addr} (h : addr ≠ 0) (mem : Memory) (size : Nat) :
    readBytes mem addr size = readMem mem addr size := by
  unfold readBytes
  by_cases hsize : size = 0
  · rw [hsize, if_neg fun hand => hand.2 rfl]
    rfl
  · exact if_pos ⟨h, hsize⟩

theorem transform_success {key input iv output resultSize : Addr} {inputSize ivSize outputSize : Nat}
    {flags : BitVec 32} {encrypt : Bool} (houtput : output ≠ 0)
    (h : transform s key input inputSize iv ivSize output outputSize resultSize flags encrypt = (.success, s')) :
    ∃ secret chainingMode cipher result, s.key? key = some (secret, chainingMode) ∧
      cipherFor chainingMode secret.length = some cipher ∧
      evp.transform cipher secret (readBytes s.mem iv ivSize) encrypt (flags &&& 1 ≠ 0)
        (readBytes s.mem input inputSize) = some result ∧
      result.length ≤ outputSize ∧ s' = (s.writeSize resultSize result.length).write output result := by
  unfold transform at h
  split at h
  · cases h
  · rename_i secret chainingMode hkey
    split at h
    · cases h
    · rename_i cipher hcipher
      dsimp only at h
      split at h
      · cases h
      · rename_i result hresult
        rw [if_neg houtput] at h
        split at h
        · cases h
        · rename_i hroom
          exact ⟨secret, chainingMode, cipher, result, hkey, hcipher, hresult, Nat.le_of_not_lt hroom,
            (Prod.mk.inj h).2.symm⟩

theorem transform_eq {key input iv output resultSize : Addr} {inputSize ivSize outputSize : Nat} {flags : BitVec 32}
    {encrypt : Bool} {secret : List UInt8} {chainingMode : WStr} {cipher : Cipher} {result : List UInt8}
    (houtput : output ≠ 0) (hkey : s.key? key = some (secret, chainingMode))
    (hcipher : cipherFor chainingMode secret.length = some cipher)
    (hresult : evp.transform cipher secret (readBytes s.mem iv ivSize) encrypt (flags &&& 1 ≠ 0)
      (readBytes s.mem input inputSize) = some result)
    (hroom : result.length ≤ outputSize) :
    transform s key input inputSize iv ivSize output outputSize resultSize flags encrypt =
      (.success, (s.writeSize resultSize result.length).write output result) := by
  unfold transform
  rw [hkey]
  dsimp only
  rw [hcipher]
  dsimp only
  rw [hresult]
  dsimp only
  rw [if_neg houtput, if_neg (Nat.not_lt.mpr hroom)]

theorem readable_vector {chainingMode : WStr} {keyBytes : Nat} {cipher : Cipher} {mem : Memory} {iv : Addr}
    {ivSize : Nat}
    (hcipher : cipherFor chainingMode keyBytes = some cipher)
    (h : chainingMode = chainingModeEcb ∨ ivSize = 0 ∨ 16 ≤ ivSize) :
    Evp.Readable cipher (if readBytes mem iv ivSize = [] then none else some (readBytes mem iv ivSize)) := by
  intro hcbc v hv
  split at hv
  · cases hv
  · rename_i hne
    obtain rfl := Option.some.inj hv
    rw [length_readBytes]
    rcases h with hecb | hzero | hlong
    · unfold cipherFor at hcipher
      split at hcipher
      · obtain rfl := Option.some.inj hcipher
        exact absurd hecb (of_decide_eq_true hcbc)
      · cases hcipher
    · exact absurd (List.eq_nil_of_length_eq_zero ((length_readBytes ..).trans hzero)) hne
    · exact hlong

theorem key?_steps {calls : List Call} {addr : Addr} {x : List UInt8 × WStr}
    (h : Run.Steps step (fun s c => c.Ok s) s calls s') (hkey : s.key? addr = some x) : s'.key? addr = some x := by
  refine h.invariant (P := fun s => s.key? addr = some x) ?_ hkey
  intro s c s' hP hok hstep
  obtain rfl := Option.some.inj hstep
  exact key?_run hok hP

theorem readMem_write (s : State evp) (addr : Addr) {bytes : List UInt8} {n : Nat} (h : bytes.length = n) :
    readMem (s.write addr bytes).mem addr n = bytes := by
  subst h
  exact readMem_writeMem s.mem addr bytes

theorem readMem_writeSize {output resultSize : Addr} {result : List UInt8} (hresultSize : resultSize ≠ 0)
    (hapart : resultSize + 4 ≤ output ∨ output + result.length ≤ resultSize) (hlength : result.length < 2 ^ 32) :
    Bytes.toNat (readMem ((s.writeSize resultSize result.length).write output result).mem resultSize 4) =
      result.length := by
  have hsame : readMem ((s.writeSize resultSize result.length).write output result).mem resultSize 4 =
      readMem (s.writeSize resultSize result.length).mem resultSize 4 := by
    refine readMem_congr fun a hle hlt => writeMem_of_out ?_
    rcases hapart with hbefore | hbehind
    · exact .inl (Nat.lt_of_lt_of_le hlt hbefore)
    · exact .inr (Nat.le_trans hbehind hle)
  rw [hsame, State.writeSize, if_neg hresultSize, readMem_write s resultSize (Bytes.length_ofNat 4 result.length)]
  exact Bytes.toNat_ofNat_of_lt hlength

/-- What `BCryptEncrypt` wrote is decrypted with the key to what was encrypted, also when the provider's chaining mode
is another by then, the provider and the key are closed, and whatever else was called. A key that chains has no vector,
or one of a block at least: of a shorter one OpenSSL reads what is behind it. -/
theorem decrypts_encrypted (hdoc : evp.CipherDocumented)
    {key input iv output resultSize : Addr} {inputSize ivSize outputSize : Nat} {flags : BitVec 32}
    (houtput : output ≠ 0) (hsize : inputSize + 16 < 2 ^ 31)
    (hvector : (∃ secret, s.key? key = some (secret, chainingModeEcb)) ∨ ivSize = 0 ∨ 16 ≤ ivSize)
    (h : bCryptEncrypt s key input inputSize iv ivSize output outputSize resultSize flags = (.success, s')) :
    ∃ total, total ≤ outputSize ∧
      (resultSize ≠ 0 → resultSize + 4 ≤ output ∨ output + total ≤ resultSize →
        Bytes.toNat (readMem s'.mem resultSize 4) = total) ∧
      ∀ calls s'', Run.Steps step (fun s c => c.Ok s) s' calls s'' →
        readMem s''.mem output total = readMem s'.mem output total →
        ∀ iv' output' outputSize' resultSize' flags', readBytes s''.mem iv' ivSize = readBytes s.mem iv ivSize →
          output' ≠ 0 → inputSize ≤ outputSize' → flags' &&& 1 = flags &&& 1 →
          ∃ s₃, bCryptDecrypt s'' key output total iv' ivSize output' outputSize' resultSize' flags' =
            (.success, s₃) ∧ readMem s₃.mem output' inputSize = readBytes s.mem input inputSize := by
  obtain ⟨secret, chainingMode, cipher, result, hkey, hcipher, hresult, hroom, rfl⟩ := transform_success houtput h
  let vector := readBytes s.mem iv ivSize
  have hshot : evp.oneShot cipher secret (if vector = [] then none else some vector) true (flags &&& 1 ≠ 0)
      (readBytes s.mem input inputSize) = some result := by
    rwa [Evp.transform, if_neg (by rw [length_readBytes]; omega)] at hresult
  have hreadable : Evp.Readable cipher (if vector = [] then none else some vector) :=
    readable_vector hcipher (hvector.imp_left fun ⟨_, hecb⟩ => (Prod.mk.inj (Option.some.inj (hkey.symm.trans hecb))).2)
  have hgrows : result.length ≤ inputSize + 16 := by
    have hle := hdoc.grows _ _ _ _ _ _ hreadable hshot
    rwa [length_readBytes] at hle
  have hwritten : readMem ((s.writeSize resultSize result.length).write output result).mem output result.length =
      result := readMem_write _ output rfl
  refine ⟨result.length, hroom, ?_, ?_⟩
  · intro hresultSize hapart
    exact readMem_writeSize hresultSize hapart (by omega)
  · intro calls s'' hrun hkept iv' output' outputSize' resultSize' flags' hiv houtput' hroom' hflags
    have hkey' : s''.key? key = some (secret, chainingMode) := by
      refine key?_steps hrun ?_
      unfold State.key?
      rw [objects_write, objects_writeSize]
      exact hkey
    have hinput : readBytes s''.mem output result.length = result := by
      rw [readBytes_of_ne houtput, hkept, hwritten]
    have hback : evp.transform cipher secret (readBytes s''.mem iv' ivSize) false (flags' &&& 1 ≠ 0)
        (readBytes s''.mem output result.length) = some (readBytes s.mem input inputSize) := by
      rw [hinput, hiv, hflags, Evp.transform, if_neg (by omega)]
      exact hdoc.inverse _ _ _ _ _ _ hreadable hshot
    refine ⟨_, transform_eq houtput' hkey' hcipher hback (by rwa [length_readBytes]), ?_⟩
    exact readMem_write _ output' (length_readBytes s.mem input inputSize)

theorem swapBlocks_swapBlocks (data : List UInt8) : swapBlocks (swapBlocks data) = data := by
  by_cases hplain : data = plainBlock
  · rw [hplain]
    decide
  · by_cases hcipher : data = cipherBlock
    · rw [hcipher]
      decide
    · have hsame : swapBlocks data = data := by rw [swapBlocks, if_neg hplain, if_neg hcipher]
      rw [hsame, hsame]

theorem length_swapBlocks (data : List UInt8) : (swapBlocks data).length = data.length := by
  unfold swapBlocks
  split_ifs with hplain hcipher
  · rw [hplain]
    rfl
  · rw [hcipher]
    rfl
  · rfl

theorem knownEvp_oneShot (cipher : Cipher) (key : List UInt8) (iv : Option (List UInt8)) (encrypt padding : Bool)
    (data : List UInt8) : knownEvp.oneShot cipher key iv encrypt padding data = some (swapBlocks data) :=
  congrArg some (List.append_nil _)

theorem knownEvp_ciphers : knownEvp.CipherDocumented := by
  refine ⟨fun cipher key iv padding data out _ h => ?_, fun cipher key iv padding data out _ h => ?_⟩
  · rw [knownEvp_oneShot] at h
    rw [← Option.some.inj h, length_swapBlocks]
    exact Nat.le_add_right _ 16
  · rw [knownEvp_oneShot] at h ⊢
    rw [← Option.some.inj h, swapBlocks_swapBlocks]

def makeKey : List Call :=
  [.writeMem 0x100 (encodeAll (wide ['A', 'E', 'S'])), .writeMem 0x200 (encodeAll propertyChainingMode),
    .writeMem 0x300 (encodeAll chainingModeEcb), .writeMem 0x400 ((List.range 16).map UInt8.ofNat),
    .writeMem 0x500 plainBlock, .bCryptOpenAlgorithmProvider 0x10 0x600 0x100, .bCryptSetProperty 0x10 0x200 0x300,
    .bCryptGenerateSymmetricKey 0x20 0x10 0x608 0x400 16]

def keyed : State knownEvp := makeKey.foldl (fun s c => (c.run s).2) {}

def encrypted : State knownEvp := (bCryptEncrypt keyed 0x20 0x500 16 0 0 0x700 16 0x800 0).2

def settledBack : State knownEvp :=
  [Call.bCryptSetProperty 0x10 0x200 0x200, .bCryptCloseAlgorithmProvider 0x10, .bCryptDestroyKey 0x20].foldl
    (fun s c => (c.run s).2) encrypted

theorem keyed_decrypts : (bCryptEncrypt keyed 0x20 0x500 16 0 0 0x700 16 0x800 0).1 = .success ∧
    readMem encrypted.mem 0x700 16 = cipherBlock ∧
    ∃ s₃, bCryptDecrypt settledBack 0x20 0x700 16 0 0 0x900 16 0 0 = (.success, s₃) ∧
      readMem s₃.mem 0x900 16 = plainBlock := by
  have hstatus : (bCryptEncrypt keyed 0x20 0x500 16 0 0 0x700 16 0x800 0).1 = .success := by decide +kernel
  have hcipher : readMem encrypted.mem 0x700 16 = cipherBlock := by decide +kernel
  have hplain : readBytes keyed.mem 0x500 16 = plainBlock := by decide +kernel
  have hwritten : Bytes.toNat (readMem encrypted.mem 0x800 4) = 16 := by decide +kernel
  have hkept : readMem settledBack.mem 0x700 16 = readMem encrypted.mem 0x700 16 := by decide +kernel
  have hencrypt : bCryptEncrypt keyed 0x20 0x500 16 0 0 0x700 16 0x800 0 = (.success, encrypted) :=
    Prod.ext hstatus rfl
  obtain ⟨total, hroom, htold, hback⟩ :=
    decrypts_encrypted knownEvp_ciphers (by decide) (by decide) (.inr (.inl rfl)) hencrypt
  have hapart : 0x700 + total ≤ 0x800 := Nat.le_trans (Nat.add_le_add_left hroom _) (by decide)
  obtain rfl : total = 16 := (htold (by decide) (.inr hapart)).symm.trans hwritten
  have hrun : Run.Steps step (fun s c => c.Ok s) encrypted
      [.bCryptSetProperty 0x10 0x200 0x200, .bCryptCloseAlgorithmProvider 0x10, .bCryptDestroyKey 0x20] settledBack :=
    .cons trivial rfl (.cons trivial rfl (.cons trivial rfl (.nil _)))
  obtain ⟨s₃, hdecrypt, hread⟩ := hback _ settledBack hrun hkept 0 0x900 16 0 0 rfl (by decide) (by decide) rfl
  exact ⟨hstatus, hcipher, s₃, hdecrypt, hread.trans hplain⟩

end Kernemul.Cng
