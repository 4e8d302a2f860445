import Mathlib.Tactic.Common

/-! The three truth values of Kleene and SQL. -/

namespace JoinOptimizer.Lib

inductive Truth
  | true
  | false
  | unknown
  deriving DecidableEq

namespace Truth

def ofBool (b : Bool) : Truth := if b then .true else .false

def and : Truth → Truth → Truth
  | .false, _ => .false
  | _, .false => .false
  | .true, .true => .true
  | _, _ => .unknown

def or : Truth → Truth → Truth
  | .true, _ => .true
  | _, .true => .true
  | .false, .false => .false
  | _, _ => .unknown

def not : Truth → Truth
  | .true => .false
  | .false => .true
  | .unknown => .unknown

variable {a b : Truth}

@[simp] theorem ofBool_eq_true {b : Bool} : ofBool b = .true ↔ b = Bool.true := by
  cases b <;> simp [ofBool]

@[simp] theorem ofBool_eq_false {b : Bool} : ofBool b = .false ↔ b = Bool.false := by
  cases b <;> simp [ofBool]

@[simp] theorem and_eq_true : a.and b = .true ↔ a = .true ∧ b = .true := by
  cases a <;> cases b <;> simp [Truth.and]

@[simp] theorem and_eq_false : a.and b = .false ↔ a = .false ∨ b = .false := by
  cases a <;> cases b <;> simp [Truth.and]

@[simp] theorem or_eq_true : a.or b = .true ↔ a = .true ∨ b = .true := by
  cases a <;> cases b <;> simp [Truth.or]

@[simp] theorem or_eq_false : a.or b = .false ↔ a = .false ∧ b = .false := by
  cases a <;> cases b <;> simp [Truth.or]

@[simp] theorem not_eq_true : a.not = .true ↔ a = .false := by
  cases a <;> simp [Truth.not]

@[simp] theorem not_eq_false : a.not = .false ↔ a = .true := by
  cases a <;> simp [Truth.not]

/-- The truth value with another value in place of the unknown. -/
def complete (unknown : Bool) : Truth → Bool
  | .true => Bool.true
  | .false => Bool.false
  | .unknown => unknown

@[simp] theorem complete_ofBool (unknown b : Bool) : (ofBool b).complete unknown = b := by
  cases b <;> rfl

theorem complete_false : a.complete Bool.false = Bool.true ↔ a = .true := by
  cases a <;> simp [complete]

theorem complete_true : a.complete Bool.true = Bool.false ↔ a = .false := by
  cases a <;> simp [complete]

end Truth

end JoinOptimizer.Lib
