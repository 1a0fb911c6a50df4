import Tesera.Policy.Rules
import Tesera.Policy.Spending

/-!
The budgets of Python, in memory and in a state file. A call of a file budget holds the OS
lock of the file's sidecar while it reads the state, decides and publishes what it has
consumed, so that the calls of all processes have one order.
-/

namespace Tesera.Policy.Budgets
open Tesera.Text Tesera.Text.Unicode Tesera.Python.Value Tesera.Policy.Spending
open Tesera.Policy.Rules (Decision getOr)

structure Request where
  actionName : Str
  spendCents : Option Nat

/-- What the four providers differ in: the limit, whether each action has its own, what a
request consumes, if it can be accounted at all, whether that is too much where so much is
used, and whether the whole table of a state file is checked. -/
structure Provider where
  limit : Nat
  perAction : Bool
  amount : Request → Option Nat
  exhausted : Int → Nat → Bool
  checksTable : Bool

/-- `BudgetProvider` and `FileBudgetProvider`. -/
def budgetProvider (maxCalls : Nat) (perAction : Bool) : Provider where
  limit := maxCalls
  perAction := perAction
  amount := fun _ => some 1
  exhausted := fun used _ => decide (used ≥ maxCalls)
  checksTable := false

/-- `SpendingBudgetProvider` and `FileSpendingBudgetProvider`. -/
def spendingBudgetProvider (maxCents : Nat) (perAction : Bool) : Provider where
  limit := maxCents
  perAction := perAction
  amount := fun request => request.spendCents
  exhausted := fun used spend => decide (used + spend > maxCents)
  checksTable := true

/-! ## In memory -/

abbrev Counts := Members.Entries Str Nat

structure Memory where
  total : Nat
  perAction : Counts

def Memory.start : Memory := ⟨0, []⟩

/-- What the bytes of the state file are to a reader. -/
inductive Stored where
  | absent
  | blank
  /-- No UTF-8, or no JSON. -/
  | corrupt
  | document (v : Json)

/-- What raises an `OSError`: the directory, the lock file or the read, or a step of
`_atomic_write_json` before `os.replace` has published the new file. -/
inductive Fault where
  | none
  | unavailable
  | persist
  deriving DecidableEq

structure Call where
  request : Request
  fault : Fault

/-- `_read_json_state`; corrupt state has no answer. -/
def readJsonState : Stored → Option (Option Dict)
  | .absent => some none
  | .blank => some none
  | .document (.dict state) => some (some state)
  | _ => none

def stateOf (total perAction : Json) : Dict := [(lit "per_action", perAction), (lit "total", total)]

/-- `_atomic_write_json`: an `OSError` leaves the file as it was. -/
def atomicWriteJson (fault : Fault) (stored : Stored) (payload : Dict) : Decision × Stored :=
  match fault with
  | .persist => (.denied, stored)
  | _ => (.allowed, .document (.dict payload))

/-- The part of `decide` under the lock. Corrupt state is denied. -/
def lockedDecide (provider : Provider) (stored : Stored) (name : Str) (amount : Nat) (fault : Fault) : Decision × Stored :=
  match readJsonState stored with
  | none => (.denied, stored)
  | some read =>
      let state := read.getD (stateOf (.int 0) (.dict []))
      let total := getOr state "total" (.int 0)
      match asInt total, getOr state "per_action" (.dict []) with
      | some used, .dict perAction =>
          if provider.checksTable && perAction.any (fun entry => (asInt entry.2).isNone) then (.denied, stored)
          else if provider.perAction then
            match asInt ((Members.get perAction name).getD (.int 0)) with
            | none => (.denied, stored)
            | some used =>
                if provider.exhausted used amount then (.denied, stored)
                else atomicWriteJson fault stored (stateOf total (.dict (Members.put name (.int (used + amount)) perAction)))
          else if provider.exhausted used amount then (.denied, stored)
          else atomicWriteJson fault stored (stateOf (.int (used + amount)) (.dict perAction))
      | _, _ => (.denied, stored)

/-- `decide` of a budget in a file. -/
def fileDecide (provider : Provider) (stored : Stored) (call : Call) : Decision × Stored :=
  match provider.amount call.request with
  | none => (.denied, stored)
  | some amount =>
      match call.fault with
      | .unavailable => (.denied, stored)
      | fault => lockedDecide provider stored call.request.actionName amount fault

/-! ## Sequences of calls -/

/-- The state file, and what has been allowed, the newest first. -/
structure Served where
  stored : Stored
  allowed : List (Str × Nat)

def Served.next (provider : Provider) (before : Served) (call : Call) : Served :=
  let answer := fileDecide provider before.stored call
  ⟨answer.2, if answer.1 = .allowed then (call.request.actionName, (provider.amount call.request).getD 0) :: before.allowed
    else before.allowed⟩

def numbers (counts : Counts) : Dict := counts.map (fun entry => (entry.1, .int entry.2))

/-- The document that holds what a budget in memory holds. -/
def documentOf (memory : Memory) : Dict := stateOf (.int memory.total) (.dict (numbers memory.perAction))

/-- The file holds what the memory does. -/
def Holds (stored : Stored) (memory : Memory) : Prop :=
  stored = .document (.dict (documentOf memory)) ∨ (stored = .absent ∧ memory = Memory.start)

/-- What is not too much stays within the limit. -/
def Careful (provider : Provider) : Prop := ∀ request used amount, provider.amount request = some amount →
  provider.exhausted (used : Nat) amount = false → used + amount ≤ provider.limit

theorem budgetProvider_careful (maxCalls : Nat) (perAction : Bool) : Careful (budgetProvider maxCalls perAction) := by
  intro request used amount one within
  cases one
  have below := of_decide_eq_false within
  exact Nat.cast_lt.mp (not_le.mp below)

theorem spendingBudgetProvider_careful (maxCents : Nat) (perAction : Bool) :
    Careful (spendingBudgetProvider maxCents perAction) := by
  intro request used spend _ within
  have bound : ¬ ((used : Int) + spend > maxCents) := of_decide_eq_false within
  have limit : (spendingBudgetProvider maxCents perAction).limit = maxCents := rfl
  omega

/-- The totals are what has been allowed, within the limit. -/
structure Accounts (provider : Provider) (memory : Memory) (allowed : List (Str × Nat)) : Prop where
  total : provider.perAction = false → memory.total = spent allowed
  perAction : provider.perAction = true → ∀ name, entryOf memory.perAction name = spentOn name allowed
  within : Within provider.limit provider.perAction allowed

theorem Accounts.start (provider : Provider) : Accounts provider Memory.start [] where
  total := fun _ => rfl
  perAction := fun _ _ => rfl
  within := ⟨fun _ => Nat.zero_le _, fun _ _ => Nat.zero_le _⟩

end Tesera.Policy.Budgets
