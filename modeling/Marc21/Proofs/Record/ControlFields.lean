import Mathlib.Data.List.Pairwise
import Marc21.Proofs.Record.Order

/-!
Where record order puts control fields. It goes by the bytes of the tag, so besides `001` the control fields
come behind data fields with tags such as `!23` or `0-1`, and in front of all others
(`controlFirst_iff`).
-/

namespace Marc21

/-- No control field comes behind a data field. -/
def ControlFirst (fs : List Field) : Prop := fs.Pairwise fun f g => g.isControl = true → f.isControl = true

namespace Tag

/-- A tag that comes before `000` in the byte order. -/
def PrecedesControl (t : Tag) : Prop := t.first < 0x30 ∨ t.first = 0x30 ∧ t.second < 0x30

instance (t : Tag) : Decidable t.PrecedesControl := inferInstanceAs (Decidable (_ ∨ _))

theorem precedesControl_iff {t : Tag} : t.PrecedesControl ↔ t.rank < 0x303000 := by
  have hfirst : t.first = 0x30 ↔ t.first.toNat = 0x30 := UInt8.toNat_inj.symm
  have hsecond := t.second.toNat_lt
  have hthird := t.third.toNat_lt
  rw [PrecedesControl, UInt8.lt_iff_toNat_lt, UInt8.lt_iff_toNat_lt, hfirst, rank]
  simp only [UInt8.reduceToNat]
  omega

theorem isControl_iff {t : Tag} : t.isControl = true ↔ 0x303000 ≤ t.rank ∧ t.rank < 0x303100 := by
  have hfirst : t.first = 0x30 ↔ t.first.toNat = 0x30 := UInt8.toNat_inj.symm
  have hsecond : t.second = 0x30 ↔ t.second.toNat = 0x30 := UInt8.toNat_inj.symm
  have hsecond' := t.second.toNat_lt
  have hthird := t.third.toNat_lt
  rw [isControl, Bool.and_eq_true, beq_iff_eq, beq_iff_eq, hfirst, hsecond, rank]
  omega

end Tag

/-- Fields that record order crosses: a data field, and a control field that it comes before. -/
structure Crossed (f g : Field) : Prop where
  precedes : f.tag.PrecedesControl
  isControl : g.isControl = true
  notNumber : g.tag ≠ Tag.controlNumber

theorem Crossed.rank_lt {f g : Field} (h : Crossed f g) : f.rank < g.rank := by
  have hf := Tag.precedesControl_iff.1 h.precedes
  have hg := Tag.isControl_iff.1 h.isControl
  have hnumber : f.tag ≠ Tag.controlNumber := by
    intro heq
    have := h.precedes
    rw [heq] at this
    exact absurd this (by decide)
  rw [Field.rank, Field.rank, if_neg hnumber, if_neg h.notNumber]
  omega

theorem Crossed.isControl_left {f g : Field} (h : Crossed f g) : f.isControl = false := by
  have hf := Tag.precedesControl_iff.1 h.precedes
  rw [Field.isControl, ← Bool.not_eq_true, Tag.isControl_iff]
  omega

/-- A data field that comes no later than a control field is crossed with it. -/
theorem crossed_of_rank_le {f g : Field} (hle : f.rank ≤ g.rank) (hf : f.isControl = false)
    (hg : g.isControl = true) : Crossed f g := by
  have hnumber : f.tag ≠ Tag.controlNumber := by
    intro heq
    rw [Field.isControl, heq] at hf
    exact absurd hf (by decide)
  have hnotNumber : g.tag ≠ Tag.controlNumber := by
    intro heq
    rw [rank_eq_zero_iff.2 heq, Nat.le_zero, rank_eq_zero_iff] at hle
    exact hnumber hle
  rw [Field.rank, Field.rank, if_neg hnumber, if_neg hnotNumber] at hle
  rw [Field.isControl, ← Bool.not_eq_true, Tag.isControl_iff] at hf
  have hcontrol := Tag.isControl_iff.1 hg
  exact ⟨Tag.precedesControl_iff.2 (by omega), hg, hnotNumber⟩

/-- **In record order the control fields come first exactly if no two fields are crossed.** -/
theorem controlFirst_iff {fs : List Field} (h : Ordered fs) :
    ControlFirst fs ↔ ∀ f ∈ fs, ∀ g ∈ fs, ¬Crossed f g := by
  constructor
  · intro hfirst
    have hbefore : fs.Pairwise fun f g => ¬Crossed f g := by
      refine hfirst.imp fun {f g} hcontrol (hcrossed : Crossed f g) => ?_
      have hdata := hcrossed.isControl_left
      rw [hcontrol hcrossed.isControl] at hdata
      cases hdata
    have hbehind : fs.Pairwise (flip fun f g => ¬Crossed f g) :=
      h.imp fun {f g} hle (hcrossed : Crossed g f) => Nat.not_lt.2 hle hcrossed.rank_lt
    exact hbefore.forall_of_forall_of_flip
      (fun f _ (hcrossed : Crossed f f) => Nat.lt_irrefl _ hcrossed.rank_lt) hbehind
  · intro hnone
    apply List.Pairwise.imp_of_mem _ h
    intro f g hf hg hle hcontrol
    by_contra hdata
    exact hnone f hf g hg (crossed_of_rank_le hle (Bool.eq_false_iff.2 hdata) hcontrol)

end Marc21
