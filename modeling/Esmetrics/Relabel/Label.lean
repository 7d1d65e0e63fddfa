import Mathlib.Logic.Function.Basic
import Esmetrics.Lib.FixedWidth
import Esmetrics.Lib.KeyedList

/-!
# Labels

Model of `esm-relabel/src/label.rs`: the label list that the relabel rules work on, and the helpers
they share. A label list is well formed when its names are pairwise distinct and no value is empty;
it is then a map from names to values in which an absent label has the empty value
(`getLabelValue_setLabel`).

Strings are their bytes.
-/

namespace Esmetrics.Relabel

/-- A label; the metric name is the label `__name__`. -/
structure Label where
  name : Bytes
  value : Bytes
deriving DecidableEq

/-- The value of the first label with a name, or the empty string. -/
def getLabelValue (labels : List Label) (name : Bytes) : Bytes :=
  ((findByKey Label.name name labels).map Label.value).getD []

/-- The values of the source labels, joined with the separator. -/
def concatSourceValues (labels : List Label) (sourceLabels : List Bytes)
    (separator : Bytes) : Bytes :=
  separator.intercalate (sourceLabels.map (getLabelValue labels))

/-- Removes the labels with a name. -/
def removeLabel (labels : List Label) (name : Bytes) : List Label :=
  dropByKey Label.name name labels

/-- Sets a label where it is, or appends it; an empty value removes it. -/
def setLabel (labels : List Label) (name value : Bytes) : List Label :=
  if value = [] then removeLabel labels name else setByKey Label.name ⟨name, value⟩ labels

/-! ### Well-formed label lists -/

/-- No value is empty. -/
def ValuesSet (labels : List Label) : Prop := ∀ l ∈ labels, l.value ≠ []

/-- The names are pairwise distinct. -/
def NamesDistinct (labels : List Label) : Prop := (labels.map Label.name).Nodup

variable {labels : List Label}

theorem ValuesSet.removeLabel (h : ValuesSet labels) (name : Bytes) :
    ValuesSet (removeLabel labels name) :=
  fun l hl => h l (List.mem_filter.mp hl).1

theorem ValuesSet.setLabel (h : ValuesSet labels) (name value : Bytes) :
    ValuesSet (setLabel labels name value) := by
  rw [Relabel.setLabel]
  split_ifs with hvalue
  · exact h.removeLabel name
  · intro l hl
    obtain rfl | hl := mem_setByKey hl
    · exact hvalue
    · exact h l hl

theorem NamesDistinct.filter (h : NamesDistinct labels) (p : Label → Bool) :
    NamesDistinct (labels.filter p) := nodup_filter h p

theorem NamesDistinct.setLabel (h : NamesDistinct labels) (name value : Bytes) :
    NamesDistinct (setLabel labels name value) := by
  rw [Relabel.setLabel]
  split_ifs
  · exact h.filter _
  · exact nodup_setByKey h _

/-- Setting a label updates the map of the values. -/
theorem getLabelValue_setLabel (labels : List Label) (name value : Bytes) :
    getLabelValue (setLabel labels name value) = Function.update
    (getLabelValue labels) name value := by
  funext k
  rw [setLabel, Function.update_apply, getLabelValue, getLabelValue]
  split_ifs with hvalue hk hk
  · rw [removeLabel, findByKey_dropByKey, if_pos hk, hvalue]
    rfl
  · rw [removeLabel, findByKey_dropByKey, if_neg hk]
  · rw [findByKey_setByKey, if_pos hk]
    rfl
  · rw [findByKey_setByKey, if_neg hk]

end Esmetrics.Relabel
