import Mathlib.Data.List.DropRight
import Mathlib.Data.UInt

/-!
# Strings of the guest

A guest string is counted in 16-bit units; names are kept as bytes. Names of files and of objects go through
`win_filesystem::normalize` before they are stored or looked up.
-/

namespace Kernemul.Text

/-- A `std::string`. -/
abbrev Str := List UInt8

/-- A `std::u16string`. -/
abbrev WStr := List UInt16

def narrowWstring (wide : WStr) : Str := wide.map fun wc => (wc &&& 0xFF).toUInt8

def widenString (narrow : Str) : WStr := narrow.map UInt8.toUInt16

def ascii (s : List Char) : Str := s.map fun c => UInt8.ofNat c.toNat

def slash : UInt8 := 0x2f
def backslash : UInt8 := 0x5c

/-- `ascii_lower`, and `std::tolower` of the C locale. -/
def lower (c : UInt8) : UInt8 := if 0x41 ≤ c ∧ c ≤ 0x5a then c + 0x20 else c

/-- What both functions named `normalize` do to every character. -/
def fold (c : UInt8) : UInt8 := lower (if c = backslash then slash else c)

/-- `pop_back` while the last character is a separator. -/
def trimEnd (s : Str) : Str := s.rdropWhile (· = slash)

/-! ## `win_filesystem::normalize` -/

def namePrefixes : List Str :=
  [ascii ['/', '?', '?', '/'], ascii ['/', 'd', 'o', 's', 'd', 'e', 'v', 'i', 'c', 'e', 's', '/']]

def systemrootName : Str := ascii ['/', 's', 'y', 's', 't', 'e', 'm', 'r', 'o', 'o', 't']

def windowsDirKey : Str := ascii ['c', ':', '/', 'w', 'i', 'n', 'd', 'o', 'w', 's']

def cutPrefix (prefixes : List Str) (s : Str) : Str :=
  match prefixes.find? fun p => p.isPrefixOf s with
  | some p => s.drop p.length
  | none => s

/-- `win_filesystem::normalize`, which `object_namespace_key` is. -/
def normalize (path : Str) : Str :=
  let result := cutPrefix namePrefixes (trimEnd (path.map fold))
  let rest := result.drop systemrootName.length
  if systemrootName.isPrefixOf result ∧ (rest = [] ∨ rest.head? = some slash) then windowsDirKey ++ rest
  else result

def objectNamespaceKey (name : Str) : Str := normalize name

/-! ## Characters -/

theorem forall_uint8 {P : UInt8 → Prop} (h : ∀ n : Fin 256, P (UInt8.ofNat n)) (c : UInt8) : P c := by
  have hc := h ⟨c.toNat, c.toNat_lt⟩
  rwa [show UInt8.ofNat (⟨c.toNat, c.toNat_lt⟩ : Fin 256) = c from UInt8.ofNat_toNat] at hc

theorem fold_fold (c : UInt8) : fold (fold c) = fold c :=
  forall_uint8 (P := fun c => fold (fold c) = fold c) (by decide +kernel) c

theorem fold_eq_of_lower (c : UInt8) : fold c = if lower c = backslash then slash else lower c :=
  forall_uint8 (P := fun c => fold c = if lower c = backslash then slash else lower c) (by decide +kernel) c

theorem narrowWstring_widenString (s : Str) : narrowWstring (widenString s) = s := by
  rw [narrowWstring, widenString, List.map_map]
  refine (List.map_congr_left fun c _ => ?_).trans (List.map_id s)
  exact forall_uint8 (P := fun c => (c.toUInt16 &&& 0xff).toUInt8 = c) (by decide +kernel) c

theorem widenString_narrowWstring {name : WStr} (hname : ∀ c ∈ name, c < 0x100) :
    widenString (narrowWstring name) = name := by
  rw [widenString, narrowWstring, List.map_map]
  refine (List.map_congr_left fun c hc => ?_).trans (List.map_id name)
  have hlt : c.toNat < 0x100 := hname c hc
  refine UInt16.toNat.inj ?_
  have hmask : c.toNat &&& 0xff = c.toNat % 2 ^ 8 := Nat.and_two_pow_sub_one_eq_mod c.toNat 8
  simp only [Function.comp_apply, id_eq, UInt8.toNat_toUInt16, UInt16.toNat_toUInt8, UInt16.toNat_and]
  change (c.toNat &&& 0xff) % 2 ^ 8 = c.toNat
  rw [hmask]
  omega

end Kernemul.Text
