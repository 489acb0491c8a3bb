import Mathlib.Data.List.Basic

/-! # Texts by bytes and by characters

Texts are compared by their characters, the characters by their code points. That is the order of
their UTF-8 bytes: the first byte of a character tells how many follow it and grows with that
number, and characters of one length are written most significant part first.

* `compare_append_left`, `compare_toNat`: comparisons of lists and of characters.
* `utf8Bytes`: the bytes of a text.
* `compare_encode_append_of_lt`: the smaller of two characters has the smaller bytes, whatever
  follows them.
* `compare_utf8Bytes`: comparing bytes is comparing characters. -/

namespace ImportMigration

/-! ## Lists and characters -/

/-- A common start does not matter to the comparison of lists. -/
theorem compare_append_left {α : Type} [Ord α] [Std.ReflOrd α] (start a b : List α) :
    compare (start ++ a) (start ++ b) = compare a b := by
  induction start with
  | nil => rfl
  | cons c start ih =>
    rw [List.cons_append, List.cons_append, List.compare_cons_cons, Std.ReflOrd.compare_self, ih]
    rfl

/-- Characters compare by their code points. -/
theorem compare_toNat (c d : Char) : compare c d = compare c.toNat d.toNat := by
  have hlt : c < d ↔ c.toNat < d.toNat := Iff.rfl
  have heq : c = d ↔ c.toNat = d.toNat := Char.toNat_inj.symm
  rw [Nat.compare_eq_ite_lt]
  simp only [compare, compareOfLessAndEq, hlt, heq]
  split_ifs <;> first | rfl | omega

/-- No character has a greater code point than the last one. -/
theorem toNat_le_greatest (c : Char) : c.toNat ≤ 0x10FFFF := by
  rcases c.valid with h | ⟨-, h⟩
  · exact Nat.le_of_lt (Nat.lt_trans h (by decide))
  · exact Nat.le_of_lt_succ h

/-! ## Bytes -/

/-- The UTF-8 bytes of a text. -/
def utf8Bytes (s : String) : List UInt8 := s.toUTF8.data.toList

/-- The bytes of a text are those of its characters. -/
theorem utf8Bytes_eq (s : String) : utf8Bytes s = s.toList.flatMap String.utf8EncodeChar := by
  have hencode : s.toByteArray = s.toList.utf8Encode := by
    conv_lhs => rw [← String.ofList_toList (s := s), String.toByteArray_ofList]
  rw [utf8Bytes, String.toUTF8_eq_toByteArray, hencode, List.utf8Encode, List.data_toByteArray,
    List.toList_toArray]

/-- Lists of bytes compare by their first bytes, and by what follows where these are equal. -/
theorem compare_cons_ofNat_eq_lt {a b : Nat} (ha : a < 256) (hb : b < 256) (x y : List UInt8) :
    compare (UInt8.ofNat a :: x) (UInt8.ofNat b :: y) = .lt ↔
      a < b ∨ a = b ∧ compare x y = .lt := by
  rw [List.compare_cons_cons, UInt8.compare_eq_toNat_compare_toNat, UInt8.toNat_ofNat_of_lt' ha,
    UInt8.toNat_ofNat_of_lt' hb, Ordering.then_eq_lt, Nat.compare_eq_lt, Nat.compare_eq_eq]

/-- **The smaller of two characters has the smaller bytes**, whatever follows them. -/
theorem compare_encode_append_of_lt {c d : Char} (h : c.toNat < d.toNat) (x y : List UInt8) :
    compare (String.utf8EncodeChar c ++ x) (String.utf8EncodeChar d ++ y) = .lt := by
  have hgreatest : d.val.toNat ≤ 0x10FFFF := toNat_le_greatest d
  have hcode : c.val.toNat < d.val.toNat := h
  simp only [String.utf8EncodeChar]
  generalize c.val.toNat = v at hcode
  generalize d.val.toNat = w at hcode hgreatest
  -- Characters of different lengths differ in their first bytes, others in the first digit that
  -- does.
  split_ifs <;> simp only [List.cons_append, List.nil_append] <;>
    simp (disch := omega) only [compare_cons_ofNat_eq_lt, Nat.mod_eq_of_lt] <;> omega

/-- Different characters compare as their bytes do, whatever follows. -/
theorem compare_encode_append_of_ne {c d : Char} (h : c ≠ d) (x y : List UInt8) :
    compare (String.utf8EncodeChar c ++ x) (String.utf8EncodeChar d ++ y) = compare c d := by
  have hne : c.toNat ≠ d.toNat := fun heq => h (Char.toNat_inj.mp heq)
  rw [compare_toNat]
  rcases Nat.lt_or_gt_of_ne hne with hlt | hgt
  · rw [compare_encode_append_of_lt hlt, Nat.compare_eq_lt.mpr hlt]
  · rw [Std.OrientedOrd.eq_swap, compare_encode_append_of_lt hgt, Nat.compare_eq_gt.mpr hgt]
    rfl

/-- A character has at least one byte. -/
theorem utf8EncodeChar_ne_nil (c : Char) : String.utf8EncodeChar c ≠ [] := by
  intro hnil
  have hlength := String.length_utf8EncodeChar c
  rw [hnil] at hlength
  exact absurd hlength (Nat.ne_of_lt c.utf8Size_pos)

/-- Lists of characters compare as their bytes do. -/
theorem compare_flatMap_utf8EncodeChar (a b : List Char) :
    compare (a.flatMap String.utf8EncodeChar) (b.flatMap String.utf8EncodeChar) = compare a b := by
  induction a generalizing b with
  | nil =>
    cases b with
    | nil => rfl
    | cons d b =>
      obtain ⟨byte, bytes, hbytes⟩ := List.exists_cons_of_ne_nil (utf8EncodeChar_ne_nil d)
      rw [List.flatMap_cons, hbytes]
      rfl
  | cons c a ih =>
    cases b with
    | nil =>
      obtain ⟨byte, bytes, hbytes⟩ := List.exists_cons_of_ne_nil (utf8EncodeChar_ne_nil c)
      rw [List.flatMap_cons, hbytes]
      rfl
    | cons d b =>
      rw [List.flatMap_cons, List.flatMap_cons, List.compare_cons_cons]
      by_cases heq : c = d
      · rw [heq, compare_append_left, ih, Std.ReflOrd.compare_self]
        rfl
      · have hne : compare c d ≠ .eq := fun h => heq (Std.compare_eq_iff_eq.mp h)
        rw [compare_encode_append_of_ne heq]
        cases hcmp : compare c d with
        | lt => rfl
        | eq => exact absurd hcmp hne
        | gt => rfl

/-- **Comparing bytes is comparing characters.** -/
theorem compare_utf8Bytes (s t : String) :
    compare (utf8Bytes s) (utf8Bytes t) = compare s.toList t.toList := by
  rw [utf8Bytes_eq, utf8Bytes_eq, compare_flatMap_utf8EncodeChar]

/-- Optional texts compare by bytes as by characters, a missing one first. -/
theorem compare_map_utf8Bytes (a b : Option String) :
    compare (a.map utf8Bytes) (b.map utf8Bytes) =
      compare (a.map String.toList) (b.map String.toList) := by
  cases a with
  | none => cases b <;> rfl
  | some s =>
    cases b with
    | none => rfl
    | some t => exact compare_utf8Bytes s t

end ImportMigration
