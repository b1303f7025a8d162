import ImplicitPlot.Proofs.Formula.Enclosure
import ImplicitPlot.Proofs.Machine.Compile
import ImplicitPlot.Proofs.Scalar.RoundingError
import ImplicitPlot.Proofs.Scalar.Size

/-!
# Formulas of one shape

Formulas of one shape have direct programs that run in step: at each place there is the same
instruction, or two constants that are related (`Expr.alike_iff_code`). That such programs come from
formulas of one shape is seen by reading them back: a program is run on a stack of formulas, where
each instruction builds a formula out of those that it takes. Instructions in step build formulas of
one shape, and a direct program builds the formula that it has been compiled from.

The tolerance makes a symmetric relation, since the difference of two finite numbers is rounded
alike in both orders. A finite constant is within the tolerance of itself, and of what it equals.
-/

namespace ImplicitPlot

open Scalar

variable {α : Type} {related : α → α → Bool}

/-! ## Shapes -/

namespace Expr

/-- The formulas have one shape, and their constants are related pairwise. -/
inductive Alike (related : α → α → Bool) : Expr α → Expr α → Prop
  | const {c d : α} (h : related c d = true) : Alike related (.const c) (.const d)
  | var (v : Variable) : Alike related (.var v) (.var v)
  | unary (op : UnaryOp) {a a' : Expr α} (h : Alike related a a') :
    Alike related (.unary op a) (.unary op a')
  | binary (op : BinaryOp) {a b a' b' : Expr α} (ha : Alike related a a')
    (hb : Alike related b b') : Alike related (.binary op a b) (.binary op a' b')

variable {a b : Expr α}

theorem alike_iff : alike related a b = true ↔ Alike related a b := by
  constructor
  · intro h
    induction a generalizing b with
    | const c =>
      cases b with
      | const d => exact .const h
      | var | unary | binary => cases h
    | var v =>
      cases b with
      | var w =>
        obtain rfl : v = w := of_decide_eq_true h
        exact .var v
      | const | unary | binary => cases h
    | unary op a ih =>
      cases b with
      | unary op' a' =>
        rw [alike, Bool.and_eq_true, decide_eq_true_iff] at h
        obtain ⟨rfl, h⟩ := h
        exact .unary op (ih h)
      | const | var | binary => cases h
    | binary op a b iha ihb =>
      cases b with
      | binary op' a' b' =>
        rw [alike, Bool.and_eq_true, Bool.and_eq_true, decide_eq_true_iff] at h
        obtain ⟨⟨rfl, ha⟩, hb⟩ := h
        exact .binary op (iha ha) (ihb hb)
      | const | var | unary => cases h
  · intro h
    induction h with
    | const h => exact h
    | var v => exact decide_eq_true rfl
    | unary op _ ih =>
      rw [alike, Bool.and_eq_true, decide_eq_true_iff]
      exact ⟨rfl, ih⟩
    | binary op _ _ iha ihb =>
      rw [alike, Bool.and_eq_true, Bool.and_eq_true, decide_eq_true_iff]
      exact ⟨⟨rfl, iha⟩, ihb⟩

namespace Alike

private theorem depth_eq (h : Alike related a b) : a.depth = b.depth := by
  induction h with
  | const | var => rfl
  | unary op _ ih => exact ih
  | binary op _ _ iha ihb => rw [depth, depth, iha, ihb]

/-- Constants that have a property may be related in another way. -/
theorem imp {P : α → Prop} {related' : α → α → Bool} (h : Alike related a b)
    (ha : a.Throughout fun e ↦ ∀ c, e = .const c → P c)
    (hb : b.Throughout fun e ↦ ∀ c, e = .const c → P c)
    (himp : ∀ c d, P c → P d → related c d = true → related' c d = true) : Alike related' a b := by
  induction h with
  | const h => exact .const (himp _ _ (ha _ rfl) (hb _ rfl) h)
  | var v => exact .var v
  | unary op _ ih => exact .unary op (ih ha.2 hb.2)
  | binary op _ _ iha ihb => exact .binary op (iha ha.2.1 hb.2.1) (ihb ha.2.2 hb.2.2)

theorem refl {P : α → Prop} (ha : a.Throughout fun e ↦ ∀ c, e = .const c → P c)
    (hrefl : ∀ c, P c → related c c = true) : Alike related a a := by
  induction a with
  | const c => exact .const (hrefl c (ha c rfl))
  | var v => exact .var v
  | unary op a ih => exact .unary op (ih ha.2)
  | binary op a b iha ihb => exact .binary op (iha ha.2.1) (ihb ha.2.2)

theorem symm (h : Alike related a b) : Alike (fun c d ↦ related d c) b a := by
  induction h with
  | const h => exact .const h
  | var v => exact .var v
  | unary op _ ih => exact .unary op ih
  | binary op _ _ iha ihb => exact .binary op iha ihb

end Alike

end Expr

/-! ## Programs in step -/

namespace Instruction

/-- The instructions are the same, or leave constants that are related. -/
inductive Alike (related : α → α → Bool) : Instruction α → Instruction α → Prop
  | pushConst {c d : α} (h : related c d = true) : Alike related (.pushConst c) (.pushConst d)
  | pushVar (v : Variable) : Alike related (.pushVar v) (.pushVar v)
  | unary (op : UnaryOp) : Alike related (.unary op) (.unary op)
  | binary (op : BinaryOp) : Alike related (.binary op) (.binary op)
  | dup : Alike related .dup .dup
  | swap : Alike related .swap .swap

/-- The formulas on a stack after an instruction: in place of a value, the instruction leaves the
formula for it. -/
def readBack : Instruction α → List (Expr α) → Option (List (Expr α))
  | pushConst c, es => some (.const c :: es)
  | pushVar v, es => some (.var v :: es)
  | unary op, a :: es => some (.unary op a :: es)
  | binary op, b :: a :: es => some (.binary op a b :: es)
  | dup, a :: es => some (a :: a :: es)
  | swap, b :: a :: es => some (a :: b :: es)
  | _, _ => none

end Instruction

namespace Program

/-- The formulas on a stack after a list of instructions. -/
def readBack : List (Instruction α) → List (Expr α) → Option (List (Expr α))
  | [], es => some es
  | i :: is, es => (i.readBack es).bind (readBack is)

theorem readBack_code (e : Expr α) (is : List (Instruction α)) (es : List (Expr α)) :
    readBack ((Plan.direct e).code ++ is) es = readBack is (e :: es) := by
  induction e generalizing is es with
  | const c => rfl
  | var v => rfl
  | unary op a ih =>
    rw [Plan.direct, Plan.code, List.append_assoc, ih]
    rfl
  | binary op a b iha ihb =>
    rw [Plan.direct, Plan.code, List.append_assoc, List.append_assoc, iha, ihb]
    rfl

variable {i j : Instruction α} {is js : List (Instruction α)} {es fs : List (Expr α)}

/-- **Instructions in step** leave formulas of one shape on stacks of such formulas. -/
theorem readBack_step (h : i.Alike related j) (hes : List.Forall₂ (Expr.Alike related) es fs) :
    Option.Rel (List.Forall₂ (Expr.Alike related)) (i.readBack es) (j.readBack fs) := by
  cases h with
  | pushConst h => exact .some (.cons (.const h) hes)
  | pushVar v => exact .some (.cons (.var v) hes)
  | unary op =>
    cases hes with
    | nil => exact .none
    | cons ha hes => exact .some (.cons (.unary op ha) hes)
  | binary op =>
    cases hes with
    | nil => exact .none
    | cons hb hes =>
      cases hes with
      | nil => exact .none
      | cons ha hes => exact .some (.cons (.binary op ha hb) hes)
  | dup =>
    cases hes with
    | nil => exact .none
    | cons ha hes => exact .some (.cons ha (.cons ha hes))
  | swap =>
    cases hes with
    | nil => exact .none
    | cons hb hes =>
      cases hes with
      | nil => exact .none
      | cons ha hes => exact .some (.cons ha (.cons hb hes))

/-- **Programs in step** leave formulas of one shape. By induction on the programs. -/
theorem readBack_run (h : List.Forall₂ (Instruction.Alike related) is js)
    (hes : List.Forall₂ (Expr.Alike related) es fs) :
    Option.Rel (List.Forall₂ (Expr.Alike related)) (readBack is es) (readBack js fs) := by
  induction h generalizing es fs with
  | nil => exact .some hes
  | @cons i j is js hij _ ih =>
    have hstep := readBack_step hij hes
    rw [readBack, readBack]
    -- Either both instructions find their operands, or none does.
    generalize i.readBack es = left at hstep ⊢
    generalize j.readBack fs = right at hstep ⊢
    cases hstep with
    | none => exact .none
    | some hes => exact ih hes

end Program

namespace Expr

variable {a b : Expr α}

/-- Formulas of one shape have code in step. -/
theorem Alike.code (h : Alike related a b) :
    List.Forall₂ (Instruction.Alike related) (Plan.direct a).code (Plan.direct b).code := by
  induction h with
  | const h => exact .cons (.pushConst h) .nil
  | var v => exact .cons (.pushVar v) .nil
  | unary op _ ih => exact List.rel_append ih (.cons (.unary op) .nil)
  | binary op _ _ iha ihb =>
    exact List.rel_append (List.rel_append iha ihb) (.cons (.binary op) .nil)

/-- **Two formulas have one shape** exactly if their code is in step. -/
theorem alike_iff_code : Alike related a b ↔
    List.Forall₂ (Instruction.Alike related) (Plan.direct a).code (Plan.direct b).code := by
  refine ⟨Alike.code, fun h ↦ ?_⟩
  have hrun := Program.readBack_run h .nil
  have hread (e : Expr α) : Program.readBack (Plan.direct e).code [] = some [e] := by
    have hcode := Program.readBack_code e [] []
    rwa [List.append_nil] at hcode
  rw [hread, hread] at hrun
  cases hrun with
  | some hes =>
    cases hes with
    | cons hab _ => exact hab

private theorem of_pushConst_mem {P : α → Prop}
    (ha : a.Throughout fun e ↦ ∀ c, e = .const c → P c) :
    ∀ i ∈ (Plan.direct a).code, ∀ c, i = .pushConst c → P c := by
  induction a with
  | const c =>
    rintro i hi d rfl
    cases List.mem_singleton.mp hi
    exact ha c rfl
  | var v =>
    rintro i hi c rfl
    cases List.mem_singleton.mp hi
  | unary op a ih =>
    rintro i hi c rfl
    rcases List.mem_append.mp hi with hi | hi
    · exact ih ha.2 _ hi c rfl
    · cases List.mem_singleton.mp hi
  | binary op a b iha ihb =>
    rintro i hi c rfl
    rcases List.mem_append.mp hi with hi | hi
    · rcases List.mem_append.mp hi with hi | hi
      · exact iha ha.2.1 _ hi c rfl
      · exact ihb ha.2.2 _ hi c rfl
    · cases List.mem_singleton.mp hi

end Expr

/-! ## The tolerance -/

namespace Binary64

variable {c d : Float}

private theorem sub_agree_neg_sub (hc : IsFinite c) (hd : IsFinite d) :
    Agree (d - c) (-(c - d)) := by
  have hnumber := not_isNaN_sub hd (Lawful.not_isNaN_of_isFinite hc)
  have hnumber' := not_isNaN_sub hc (Lawful.not_isNaN_of_isFinite hd)
  rw [isNaN_iff] at hnumber hnumber'
  refine agree_iff.mpr ⟨⟨hnumber, isNumber_neg.mpr hnumber'⟩, ?_⟩
  -- Both are the rounding of one exact difference, and rounding is monotone.
  have hrounds := signedRoundsTo_difference hd hc
  have hrounds' := (signedRoundsTo_difference hc hd).neg
  rw [Int.neg_sub] at hrounds'
  rw [unpacked_neg, rank_neg]
  exact Int.le_antisymm (hrounds.le hrounds' (Int.le_refl _)) (hrounds'.le hrounds (Int.le_refl _))

private theorem abs_sub_le_comm {t : Float} (hc : IsFinite c) (hd : IsFinite d) (ht : ¬IsNaN t) :
    Scalar.abs (c - d) ≤ t ↔ Scalar.abs (d - c) ≤ t := by
  have hagree := (sub_agree_neg_sub hc hd).abs
  have hneg : Scalar.abs (-(c - d)) = Scalar.abs (c - d) := abs_neg (c - d)
  rw [hneg] at hagree
  exact hagree.symm.le_iff (agree_self ht)

theorem abs_sub_le_of_agree (hc : IsFinite c) (h : Agree c d) :
    Scalar.abs (c - d) ≤ constantTolerance := by
  have hnumber := Lawful.not_isNaN_of_isFinite hc
  have hsame := sub_agree (agree_self hnumber) h
    (not_isNaN_sub hc (Lawful.not_isNaN_of_isFinite hc))
  exact Lawful.le_trans hsame.abs.2 (abs_sub_self_le hc)

end Binary64

/-! ## Nearly equal formulas -/

namespace Instruction

/-- The instructions are the same, or leave constants that are apart by the tolerance at most. -/
def Near [Scalar α] (i j : Instruction α) : Prop :=
  i = j ∨ ∃ c d, i = .pushConst c ∧ j = .pushConst d ∧ Scalar.abs (c - d) ≤ constantTolerance

theorem Alike.refl {i : Instruction α} (h : ∀ c, i = .pushConst c → related c c = true) :
    i.Alike related i := by
  cases i with
  | pushConst c => exact .pushConst (h c rfl)
  | pushVar v => exact .pushVar v
  | unary op => exact .unary op
  | binary op => exact .binary op
  | dup => exact .dup
  | swap => exact .swap

/-- An instruction that leaves no infinite constant is near those that are like it up to the
tolerance. -/
theorem near_iff {i j : Instruction Float} (hi : ∀ c, i = .pushConst c → IsFinite c) :
    i.Near j ↔ i.Alike (fun c d ↦ Scalar.abs (c - d) ≤ (constantTolerance : Float)) j := by
  constructor
  · rintro (rfl | ⟨c, d, rfl, rfl, h⟩)
    -- An infinite constant is not within the tolerance of itself: the difference is no number.
    · refine .refl fun c hc ↦ decide_eq_true ?_
      have hfinite := hi c hc
      exact Binary64.abs_sub_le_of_agree hfinite (agree_self (Lawful.not_isNaN_of_isFinite hfinite))
    · exact .pushConst (decide_eq_true h)
  · intro h
    cases h with
    | pushConst h => exact .inr ⟨_, _, rfl, rfl, of_decide_eq_true h⟩
    | pushVar | unary | binary | dup | swap => exact .inl rfl

end Instruction

namespace Expr

/-- All constants are finite. -/
def HasFiniteConstants [Scalar α] : Expr α → Prop :=
  Throughout fun e ↦ ∀ c, e = const c → IsFinite c

variable {a b : Expr Float}

theorem nearlyEquals_iff_code (ha : a.HasFiniteConstants) : a.nearlyEquals b = true ↔
    List.Forall₂ Instruction.Near (Program.compileDirect a).code
      (Program.compileDirect b).code := by
  have hconst := of_pushConst_mem ha
  rw [nearlyEquals, alike_iff, alike_iff_code]
  constructor
  · intro h
    have hboth := (List.forall₂_and_left _ _).mpr ⟨hconst, h⟩
    exact hboth.imp fun i j hij ↦ (Instruction.near_iff hij.1).mpr hij.2
  · intro h
    have hboth := (List.forall₂_and_left _ _).mpr ⟨hconst, h⟩
    exact hboth.imp fun i j hij ↦ (Instruction.near_iff hij.1).mp hij.2

theorem nearlyEquals_symm (ha : a.HasFiniteConstants) (hb : b.HasFiniteConstants)
    (h : a.nearlyEquals b = true) : b.nearlyEquals a = true := by
  refine alike_iff.mpr ((alike_iff.mp h).symm.imp hb ha fun c d hc hd hcd ↦ ?_)
  have ht : ¬IsNaN (constantTolerance : Float) := not_isNaN_zeroTolerance
  exact decide_eq_true ((Binary64.abs_sub_le_comm hc hd ht).mpr (of_decide_eq_true hcd))

/-- **Near equality is equality of shape, up to the tolerance.** For formulas with finite constants
it is reflexive and symmetric, and contains equality. Two such formulas are nearly equal exactly if
their direct programs have the same instructions in the same places, up to constants that are apart
by the tolerance at most; and then they have one depth, and their programs ask for one stack
size. -/
theorem nearlyEquals_iff_programs_near (a b : Expr Float) (ha : a.HasFiniteConstants)
    (hb : b.HasFiniteConstants) :
    a.nearlyEquals a = true ∧
    (a.equals b = true → a.nearlyEquals b = true) ∧
    a.nearlyEquals b = b.nearlyEquals a ∧
    (a.nearlyEquals b = true ↔ List.Forall₂ Instruction.Near (Program.compileDirect a).code
      (Program.compileDirect b).code) ∧
    (a.nearlyEquals b = true → a.depth = b.depth ∧
      (Program.compileDirect a).stackSize = (Program.compileDirect b).stackSize) := by
  have hagree {c d : Float} (hc : IsFinite c) (h : Agree c d) :
      decide (Scalar.abs (c - d) ≤ constantTolerance) = true :=
    decide_eq_true (Binary64.abs_sub_le_of_agree hc h)
  refine ⟨?_, fun h ↦ ?_, ?_, nearlyEquals_iff_code ha, fun h ↦ ?_⟩
  · refine alike_iff.mpr (.refl ha fun c hc ↦ hagree hc ?_)
    exact agree_self (Lawful.not_isNaN_of_isFinite hc)
  · refine alike_iff.mpr ((alike_iff.mp h).imp ha hb fun c d hc _ hcd ↦ ?_)
    exact hagree hc (of_decide_eq_true hcd)
  · exact Bool.eq_iff_iff.mpr ⟨nearlyEquals_symm ha hb, nearlyEquals_symm hb ha⟩
  · have hdepth := (alike_iff.mp h).depth_eq
    rw [Program.stackSize_compileDirect, Program.stackSize_compileDirect]
    exact ⟨hdepth, hdepth⟩

/-- The horizontal coordinate times a number. -/
def multiple (c : Float) : Expr Float := binary .mul (var .x) (const c)

/-- A number may be replaced by one that is very near to it, but the formulas are not equal then. -/
theorem multiples_near :
    (multiple 2).HasFiniteConstants ∧ (multiple 2.000000000001).HasFiniteConstants ∧
    (multiple 2).nearlyEquals (multiple 2.000000000001) = true ∧
    (multiple 2.000000000001).nearlyEquals (multiple 2) = true ∧
    (multiple 2).equals (multiple 2.000000000001) = false ∧
    List.Forall₂ Instruction.Near (Program.compileDirect (multiple 2)).code
      (Program.compileDirect (multiple 2.000000000001)).code := by
  have hfinite {c : Float} (hc : IsFinite c) : (multiple c).HasFiniteConstants := by
    refine ⟨nofun, nofun, ?_⟩
    rintro d ⟨⟩
    exact hc
  have htwo := hfinite (c := 2) (by decide +kernel)
  have hmore := hfinite (c := 2.000000000001) (by decide +kernel)
  have hnear : (multiple 2).nearlyEquals (multiple 2.000000000001) = true := by decide +kernel
  obtain ⟨-, -, hsymm, hcode, -⟩ :=
    nearlyEquals_iff_programs_near (multiple 2) (multiple 2.000000000001) htwo hmore
  exact ⟨htwo, hmore, hnear, hsymm ▸ hnear, by decide +kernel, hcode.mp hnear⟩

end Expr

end ImplicitPlot
