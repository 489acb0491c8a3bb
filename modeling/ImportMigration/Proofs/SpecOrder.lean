import ImportMigration.ImportSpec.Order
import ImportMigration.Proofs.ByteOrder
import ImportMigration.Proofs.SpecGrammar

/-! # The order on canonical specs

The order of import specs is transitive and oriented on all values; on canonical specs it is also
antisymmetric, because a canonical spec is determined by its qualified name and its local name.
Between specs without local names the qualified names alone decide.

* `ImportSpec.Canonical.order_eq_iff`: equal comparison is equality.
* `ImportSpec.Canonical.sameKey_iff`: so is agreement in the keys.
* `ImportSpec.Canonical.order_eq_compare`: the comparison of qualified names.
* `ImportSpec.order_eq_then`, `ImportSpec.Canonical.order_eq_then`: the comparison by bytes, in four
  stages on all values and in two on canonical specs.
* `ImportSpec.order_preorder`: the order as a whole. -/

namespace ImportMigration.ImportSpec

instance : Std.TransCmp order := inferInstanceAs (Std.TransCmp (compareLex _ _))

/-- A spec compares equal to itself. -/
@[simp] theorem order_self (s : ImportSpec) : s.order s = .eq := Std.ReflCmp.compare_self

/-- Specs that compare equal agree in their qualified names and local names. -/
theorem names_eq_of_order_eq {s t : ImportSpec} (h : s.order t = .eq) :
    s.qualifiedName = t.qualifiedName ∧ s.localName = t.localName := by
  have hkeys := (sameKey_eq_true_iff s t).mpr h
  simp only [sameKey, Bool.and_eq_true, beq_iff_eq] at hkeys
  exact ⟨hkeys.2, hkeys.1.1.2⟩

/-- Canonical specs compare equal exactly when they are the same. -/
theorem Canonical.order_eq_iff {s t : ImportSpec} (hs : s.Canonical) (ht : t.Canonical) :
    s.order t = .eq ↔ s = t := by
  constructor
  · intro h
    obtain ⟨hname, hlocal⟩ := names_eq_of_order_eq h
    exact hs.eq_of_qualifiedName ht hname hlocal
  · rintro rfl
    exact order_self s

/-- Canonical specs agree in the keys of the order exactly when they are the same. -/
theorem Canonical.sameKey_iff {s t : ImportSpec} (hs : s.Canonical) (ht : t.Canonical) :
    s.sameKey t = true ↔ s = t := by
  rw [sameKey_eq_true_iff, hs.order_eq_iff ht]

/-- The qualified names decide a comparison unless they are the same. -/
theorem order_of_qualifiedName_ne {s t : ImportSpec} (h : s.qualifiedName ≠ t.qualifiedName) :
    s.order t = compare s.qualifiedName.toList t.qualifiedName.toList := by
  have hne : compare s.qualifiedName.toList t.qualifiedName.toList ≠ .eq := by
    rw [Ne, Std.compare_eq_iff_eq, String.toList_inj]
    exact h
  simp only [order, compareLex, compareOn]
  cases hcmp : compare s.qualifiedName.toList t.qualifiedName.toList with
  | eq => exact absurd hcmp hne
  | lt => rfl
  | gt => rfl

/-- Canonical specs without local names compare as their qualified names do. -/
theorem Canonical.order_eq_compare {s t : ImportSpec} (hs : s.Canonical) (ht : t.Canonical)
    (hslocal : s.localName = none) (htlocal : t.localName = none) :
    s.order t = compare s.qualifiedName.toList t.qualifiedName.toList := by
  by_cases hname : s.qualifiedName = t.qualifiedName
  · obtain rfl := hs.eq_of_qualifiedName ht hname (hslocal.trans htlocal.symm)
    rw [order_self, Std.ReflOrd.compare_self]
  · exact order_of_qualifiedName_ne hname

/-! ## By bytes -/

/-- **The order by bytes**: qualified name, owner chain, element and local name in turn. -/
theorem order_eq_then (s t : ImportSpec) :
    s.order t =
      (compare (utf8Bytes s.qualifiedName) (utf8Bytes t.qualifiedName)).then
        ((compare (utf8Bytes s.ownerPath) (utf8Bytes t.ownerPath)).then
          ((compare (s.element.map utf8Bytes) (t.element.map utf8Bytes)).then
            (compare (s.localName.map utf8Bytes) (t.localName.map utf8Bytes)))) := by
  simp only [compare_utf8Bytes, compare_map_utf8Bytes]
  rfl

/-- Canonical specs with one qualified name agree in all but their local names. -/
theorem Canonical.withoutLocalName_eq {s t : ImportSpec} (hs : s.Canonical) (ht : t.Canonical)
    (h : s.qualifiedName = t.qualifiedName) : s.withoutLocalName = t.withoutLocalName :=
  hs.withoutLocalName.eq_of_qualifiedName ht.withoutLocalName h rfl

/-- **On canonical specs the owner chain and the element never decide.** -/
theorem Canonical.order_eq_then {s t : ImportSpec} (hs : s.Canonical) (ht : t.Canonical) :
    s.order t =
      (compare (utf8Bytes s.qualifiedName) (utf8Bytes t.qualifiedName)).then
        (compare (s.localName.map utf8Bytes) (t.localName.map utf8Bytes)) := by
  rw [ImportSpec.order_eq_then]
  by_cases hname : s.qualifiedName = t.qualifiedName
  · have hsame := hs.withoutLocalName_eq ht hname
    have howners : s.ownerPath = t.ownerPath := by
      show s.withoutLocalName.ownerPath = t.withoutLocalName.ownerPath
      rw [hsame]
    have helement : s.element = t.element := by
      show s.withoutLocalName.element = t.withoutLocalName.element
      rw [hsame]
    rw [howners, helement, Std.ReflOrd.compare_self, Std.ReflOrd.compare_self]
    rfl
  · have hne : compare (utf8Bytes s.qualifiedName) (utf8Bytes t.qualifiedName) ≠ .eq := by
      rw [compare_utf8Bytes, ne_eq, Std.compare_eq_iff_eq, String.toList_inj]
      exact hname
    cases hcmp : compare (utf8Bytes s.qualifiedName) (utf8Bytes t.qualifiedName) with
    | lt => rfl
    | eq => exact absurd hcmp hne
    | gt => rfl

/-- **The order of import specs.** On all values it is oriented and transitive, and two specs
compare equal exactly when they agree in qualified name, owner chain, element and local name. Specs
that are read compare equal only if they are the same; they compare by the bytes of their qualified
names and then of their local names, a missing one first. -/
theorem order_preorder :
    (∀ s t : ImportSpec, t.order s = (s.order t).swap) ∧
      (∀ s t u : ImportSpec, (s.order t).isLE → (t.order u).isLE → (s.order u).isLE) ∧
      (∀ s t : ImportSpec, s.order t = .eq ↔ s.qualifiedName = t.qualifiedName ∧
        s.ownerPath = t.ownerPath ∧ s.element = t.element ∧ s.localName = t.localName) ∧
      ∀ (source source' : String) (s t : ImportSpec), parse source = .ok s → parse source' = .ok t →
        (s.order t = .eq ↔ s = t) ∧
        s.order t =
          (compare (utf8Bytes s.qualifiedName) (utf8Bytes t.qualifiedName)).then
            (compare (s.localName.map utf8Bytes) (t.localName.map utf8Bytes)) := by
  refine ⟨fun s t => Std.OrientedCmp.eq_swap, fun s t u => Std.TransCmp.isLE_trans, ?_, ?_⟩
  · intro s t
    rw [← sameKey_eq_true_iff]
    simp only [sameKey, Bool.and_eq_true, beq_iff_eq]
    grind
  · intro source source' s t hs ht
    have hs := canonical_of_parse hs
    have ht := canonical_of_parse ht
    exact ⟨hs.order_eq_iff ht, hs.order_eq_then ht⟩

/-- Two local names for one class: the second starts with a character of four bytes, which comes
last by bytes though its first UTF-16 unit is the smaller one. -/
theorem order_preorder_local_names :
    parse "a.B.C as \ufffd" = .ok ⟨"a", ["B"], some "C", some "\ufffd"⟩ ∧
      parse "a.B.C as 😀" = .ok ⟨"a", ["B"], some "C", some "😀"⟩ ∧
      (compare (utf8Bytes "a.B.C") (utf8Bytes "a.B.C")).then
        (compare (some (utf8Bytes "\ufffd")) (some (utf8Bytes "😀"))) = .lt := by
  have hs : parse "a.B.C as \ufffd" = .ok ⟨"a", ["B"], some "C", some "\ufffd"⟩ := by decide +kernel
  have ht : parse "a.B.C as 😀" = .ok ⟨"a", ["B"], some "C", some "😀"⟩ := by decide +kernel
  have hless :
      order ⟨"a", ["B"], some "C", some "\ufffd"⟩ ⟨"a", ["B"], some "C", some "😀"⟩ = .lt := by
    decide +kernel
  exact ⟨hs, ht, (order_preorder.2.2.2 _ _ _ _ hs ht).2.symm.trans hless⟩

end ImportMigration.ImportSpec
