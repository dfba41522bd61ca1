/-! Statuses returned by every fallible operation of the engine. -/

namespace Quartz

inductive Code where
  | ok
  | invalidArgument
  | ioError
  | corruption
  | outOfMemory
  | unknown
  deriving DecidableEq, Repr

structure Status where
  code : Code := .ok
  message : String := ""
  deriving DecidableEq, Repr

namespace Status

def success : Status := {}
def invalidArgument (message : String) : Status := ⟨.invalidArgument, message⟩
def ioError (message : String) : Status := ⟨.ioError, message⟩
def corruption (message : String) : Status := ⟨.corruption, message⟩
def outOfMemory (message : String) : Status := ⟨.outOfMemory, message⟩

def ok (status : Status) : Bool := status.code == .ok

@[simp] theorem ok_success : success.ok = true := rfl
@[simp] theorem ok_invalidArgument (message : String) : (invalidArgument message).ok = false := rfl
@[simp] theorem ok_ioError (message : String) : (ioError message).ok = false := rfl
@[simp] theorem ok_corruption (message : String) : (corruption message).ok = false := rfl
@[simp] theorem ok_outOfMemory (message : String) : (outOfMemory message).ok = false := rfl

end Status

/-- A check that has passed. -/
theorem if_not_true {α : Type} {decided : Decidable ((!true) = true)} (stop go : α) :
    (if (!true) = true then stop else go) = go := if_neg Bool.false_ne_true

theorem if_false_true {α : Type} {decided : Decidable (false = true)} (stop go : α) :
    (if false = true then stop else go) = go := if_neg Bool.false_ne_true

end Quartz
