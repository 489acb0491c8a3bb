import ImportMigration.ImportSpec.Basic

/-! # The order of import specs

Specs are ordered by their qualified names first, so that everything below a scope lies in one
interval; ties are broken by the owner chain, the element and the local name, a missing one first.
Texts compare by code points, which is the order of their UTF-8 bytes.

* `ImportSpec.order`: the comparison. It identifies specs that agree in the four keys, which for
  values outside the grammar need not be the same spec.
* `ImportSpec.sameKey`: specs that agree in the keys.
* `ImportSpec.sameKey_eq_true_iff`: they are those that compare equal. -/

namespace ImportMigration.ImportSpec

/-- The owner chain as it is compared: joined by dots. -/
def ownerPath (s : ImportSpec) : String := ".".intercalate s.owners

/-- Compares two specs: qualified name, then owner chain, then element, then local name. -/
def order : ImportSpec → ImportSpec → Ordering :=
  compareLex (compareOn (·.qualifiedName.toList)) <|
  compareLex (compareOn (·.ownerPath.toList)) <|
  compareLex (compareOn (·.element.map String.toList)) <|
  compareOn (·.localName.map String.toList)

/-- Whether two specs agree in the four keys of the order. -/
def sameKey (s t : ImportSpec) : Bool :=
  s.element == t.element && s.localName == t.localName && s.ownerPath == t.ownerPath &&
    s.qualifiedName == t.qualifiedName

/-- Optional texts are the same when their characters are. -/
theorem map_toList_inj {a b : Option String} :
    a.map String.toList = b.map String.toList ↔ a = b :=
  Option.map_inj_right fun _ _ => String.toList_inj.1

/-- The specs that agree in the four keys are those that compare equal. -/
theorem sameKey_eq_true_iff (s t : ImportSpec) : s.sameKey t = true ↔ s.order t = .eq := by
  simp only [sameKey, order, compareLex_eq_eq, compareOn, Std.compare_eq_iff_eq,
    Bool.and_eq_true, beq_iff_eq, String.toList_inj, map_toList_inj]
  grind

end ImportMigration.ImportSpec
