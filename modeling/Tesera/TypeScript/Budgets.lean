import Tesera.Policy.Spending
import Tesera.Text.Unicode
import Tesera.Transition

/-!
The budgets that TypeScript keeps in memory. A decision reads a `Ref` in one effect and
writes it in another, so that other fibers decide in between; and it adds as doubles do.
A budget holds where no decision is overtaken and every sum is exact.
-/

namespace Tesera.TypeScript.Budgets
open Tesera.Text Tesera.Text.Unicode Tesera.Transition Tesera.Policy.Spending

/-! ## Integers as doubles -/

/-- The double nearest a natural number, of two as near the even one. The exponent has no
bound: a sum beyond the largest double exceeds every limit. -/
def nearest (n : Nat) : Nat :=
  let unit := 2 ^ (Nat.log2 n - 52)
  let quotient := n / unit
  let remainder := n % unit
  if 2 * remainder < unit ∨ (2 * remainder = unit ∧ quotient % 2 = 0) then quotient * unit else (quotient + 1) * unit

theorem nearest_of_lt {n : Nat} (small : n < 2 ^ 53) : nearest n = n := by
  have bits : Nat.log2 n < 53 := by
    by_cases zero : n = 0
    · subst zero
      decide
    · exact (Nat.log2_lt zero).mpr small
  have unit : Nat.log2 n - 52 = 0 := by omega
  simp [nearest, unit, Nat.mod_one]

theorem le_nearest {n : Nat} (large : 2 ^ 53 ≤ n) : 2 ^ 53 ≤ nearest n := by
  have nonzero : n ≠ 0 := by omega
  have bits : 53 ≤ Nat.log2 n := (Nat.le_log2 nonzero).mpr large
  have whole : 2 ^ 52 * 2 ^ (Nat.log2 n - 52) = 2 ^ Nat.log2 n := by
    rw [← Nat.pow_add]
    congr 1
    omega
  have quotient : 2 ^ 52 ≤ n / 2 ^ (Nat.log2 n - 52) := by
    rw [Nat.le_div_iff_mul_le (Nat.two_pow_pos _), whole]
    exact Nat.log2_self_le nonzero
  have floor : 2 ^ 53 ≤ n / 2 ^ (Nat.log2 n - 52) * 2 ^ (Nat.log2 n - 52) :=
    calc 2 ^ 53 ≤ 2 ^ Nat.log2 n := Nat.pow_le_pow_right (by decide) bits
      _ = 2 ^ 52 * 2 ^ (Nat.log2 n - 52) := whole.symm
      _ ≤ _ := Nat.mul_le_mul_right _ quotient
  simp only [nearest]
  split_ifs
  · exact floor
  · exact floor.trans (Nat.mul_le_mul_right _ (Nat.le_succ _))

/-- A sum that stays within a limit below 2 ^ 53 is exact. -/
theorem nearest_exact {n limit : Nat} (small : limit < 2 ^ 53) (within : nearest n ≤ limit) : nearest n = n := by
  by_cases large : 2 ^ 53 ≤ n
  · have above := le_nearest large
    omega
  · exact nearest_of_lt (by omega)

/-! ## The providers -/

/-- `spendCents`; what is no integer is denied like what is not there. -/
inductive SpendCents where
  | undeclared
  | integer (n : Int)
  | other

structure Request where
  actionName : Str
  spendCents : SpendCents

/-- A budget in memory: its limit, whether each action has its own, what a request consumes,
if it can be accounted at all, and whether that is denied where so much is used. -/
structure Provider where
  limit : Nat
  perAction : Bool
  amount : Request → Option Nat
  exhausted : Nat → Nat → Bool

def budgetProvider (maxCalls : Nat) (perAction : Bool) : Provider where
  limit := maxCalls
  perAction := perAction
  amount := fun _ => some 1
  exhausted := fun used _ => decide (maxCalls ≤ used)

/-- `spend === null || !Number.isInteger(spend) || spend < 0` is denied. -/
def accountable : SpendCents → Option Nat
  | .integer (.ofNat spend) => some spend
  | _ => none

def spendingBudgetProvider (maxCents : Nat) (perAction : Bool) : Provider where
  limit := maxCents
  perAction := perAction
  amount := fun request => accountable request.spendCents
  exhausted := fun used spend => decide (maxCents < nearest (used + spend))

inductive Decision where
  | allowed
  | denied
  deriving DecidableEq

abbrev Counts := Members.Entries Str Nat

/-- What a fiber in `decide` does next: read the `Ref`, or write what follows from the value
it has read. -/
inductive Phase where
  | reading (amount : Nat)
  | writing (used amount : Nat) (counts : Counts)
  | done (decision : Decision)
  deriving DecidableEq

structure Call where
  actionName : Str
  phase : Phase
  deriving DecidableEq

/-- The two `Ref`s, the calls of all fibers, and the log of what was allowed. -/
structure State where
  total : Nat
  counts : Counts
  calls : List Call
  allowed : List (Str × Nat)
  deriving DecidableEq

def start : State := ⟨0, [], [], []⟩

/-- A fiber makes a call, or one that was made takes its next effect. -/
inductive Action where
  | decide (request : Request)
  | read (call : Nat)
  | write (call : Nat)

def State.used (provider : Provider) (state : State) (name : Str) : Nat :=
  if provider.perAction then entryOf state.counts name else state.total

def State.move (state : State) (index : Nat) (name : Str) (phase : Phase) : State :=
  { state with calls := state.calls.set index ⟨name, phase⟩ }

def step (provider : Provider) (state : State) : Action → Option State
  | .decide request =>
      let phase := ((provider.amount request).map Phase.reading).getD (.done .denied)
      some { state with calls := state.calls ++ [⟨request.actionName, phase⟩] }
  | .read index =>
      match state.calls[index]? with
      | some ⟨name, .reading amount⟩ =>
          let used := state.used provider name
          if provider.exhausted used amount then some (state.move index name (.done .denied))
          else some (state.move index name (.writing used amount state.counts))
      | _ => none
  | .write index =>
      match state.calls[index]? with
      | some ⟨name, .writing used amount counts⟩ =>
          let next := nearest (used + amount)
          let written :=
            if provider.perAction then { state with counts := Members.put name next counts }
            else { state with total := next }
          some { written.move index name (.done .allowed) with allowed := (name, amount) :: state.allowed }
      | _ => none

/-- A write finds in the `Ref` what its call has read, and its sum is exact. -/
def Undisturbed (provider : Provider) (state : State) : Action → Prop
  | .write index => ∀ name used amount counts, state.calls[index]? = some ⟨name, .writing used amount counts⟩ →
      (if provider.perAction then state.counts = counts else state.total = used) ∧ nearest (used + amount) = used + amount
  | _ => True

/-! ## The bound -/

/-- What is not denied to a request stays within the limit, if the sum is exact. -/
def Careful (provider : Provider) : Prop := ∀ request used amount, provider.amount request = some amount →
  provider.exhausted used amount = false → nearest (used + amount) = used + amount → used + amount ≤ provider.limit

theorem budgetProvider_careful (maxCalls : Nat) (perAction : Bool) : Careful (budgetProvider maxCalls perAction) := by
  intro request used amount one within _
  cases one
  exact Nat.not_le.mp (of_decide_eq_false within)

theorem spendingBudgetProvider_careful (maxCents : Nat) (perAction : Bool) :
    Careful (spendingBudgetProvider maxCents perAction) := by
  intro request used spend _ within exact
  have bound : ¬ maxCents < nearest (used + spend) := of_decide_eq_false within
  rw [exact] at bound
  exact Nat.not_lt.mp bound

/-- The amount a call is about. -/
def Phase.amount : Phase → Option Nat
  | .reading amount => some amount
  | .writing _ amount _ => some amount
  | .done _ => none

/-- The `Ref` holds what has been allowed, within the limit, and a call that is to write has
not been denied. -/
structure Sound (provider : Provider) (state : State) : Prop where
  total : provider.perAction = false → state.total = spent state.allowed
  counts : provider.perAction = true → ∀ name, entryOf state.counts name = spentOn name state.allowed
  within : Within provider.limit provider.perAction state.allowed
  logged : ∀ entry ∈ state.allowed, ∃ request, provider.amount request = some entry.2
  requested : ∀ call ∈ state.calls, ∀ amount ∈ call.phase.amount, ∃ request, provider.amount request = some amount
  writing : ∀ name used amount counts, ⟨name, .writing used amount counts⟩ ∈ state.calls →
    provider.exhausted used amount = false ∧ (provider.perAction = true → used = entryOf counts name)

section Runs

variable {provider : Provider} {state after : State}

/-- The calls of a state after one of them has moved. -/
theorem mem_move {index : Nat} {name : Str} {phase : Phase} {call : Call}
    (member : call ∈ (state.move index name phase).calls) : call = ⟨name, phase⟩ ∨ call ∈ state.calls :=
  (List.mem_or_eq_of_mem_set member).symm

/-- A move to a phase of the same amount, or done, asks only what the phase says. -/
theorem Sound.move {index : Nat} {name : Str} {phase before : Phase} (sound : Sound provider state)
    (found : state.calls[index]? = some ⟨name, before⟩) (same : ∀ amount ∈ phase.amount, before.amount = some amount)
    (writing : ∀ used amount counts, phase = .writing used amount counts →
      provider.exhausted used amount = false ∧ (provider.perAction = true → used = entryOf counts name)) :
    Sound provider (state.move index name phase) := by
  refine ⟨sound.total, sound.counts, sound.within, sound.logged, ?_, ?_⟩
  · intro call member amount about
    rcases mem_move member with rfl | earlier
    · exact sound.requested _ (List.mem_of_getElem? found) amount (same amount about)
    · exact sound.requested call earlier amount about
  · intro other used amount counts member
    rcases mem_move member with moved | earlier
    · cases moved
      exact writing used amount counts rfl
    · exact sound.writing other used amount counts earlier

theorem step_keeps {action : Action} (careful : Careful provider) (undisturbed : Undisturbed provider state action)
    (sound : Sound provider state) (taken : step provider state action = some after) : Sound provider after := by
  cases action with
  | decide request =>
    cases taken
    refine ⟨sound.total, sound.counts, sound.within, sound.logged, ?_, ?_⟩
    · intro call member amount about
      rcases List.mem_append.mp member with earlier | new
      · exact sound.requested call earlier amount about
      · rw [List.mem_singleton] at new
        subst new
        cases accounted : provider.amount request with
        | none => simp [accounted, Phase.amount] at about
        | some spend =>
          have same : spend = amount := by simpa [accounted, Phase.amount] using about
          exact ⟨request, same ▸ accounted⟩
    · intro name used amount counts member
      rcases List.mem_append.mp member with earlier | new
      · exact sound.writing name used amount counts earlier
      · cases accounted : provider.amount request with
        | none => simp [accounted] at new
        | some amount => simp [accounted] at new
  | read index =>
    rw [step] at taken
    cases found : state.calls[index]? with
    | none => simp [found] at taken
    | some call =>
      obtain ⟨name, phase⟩ := call
      cases phase with
      | reading amount =>
        simp only [found] at taken
        split_ifs at taken with denied
        · cases taken
          apply sound.move found
          · exact fun _ about => nomatch about
          · exact fun _ _ _ impossible => nomatch impossible
        · cases taken
          apply sound.move found
          · exact fun _ about => about
          · intro used spend counts same
            cases same
            refine ⟨Bool.eq_false_iff.mpr denied, ?_⟩
            intro each
            rw [State.used, if_pos each]
      | writing _ _ _ | done _ => simp [found] at taken
  | write index =>
    rw [step] at taken
    cases found : state.calls[index]? with
    | none => simp [found] at taken
    | some call =>
      obtain ⟨name, phase⟩ := call
      cases phase with
      | writing used amount counts =>
        obtain ⟨unchanged, exact⟩ := undisturbed name used amount counts found
        have member := List.mem_of_getElem? found
        obtain ⟨admitted, read⟩ := sound.writing name used amount counts member
        obtain ⟨request, requested⟩ := sound.requested _ member amount rfl
        have bound := careful request used amount requested admitted exact
        have moved := @Sound.move provider state index name (.done .allowed) _ sound found
          (fun _ about => nomatch about) (fun _ _ _ impossible => nomatch impossible)
        simp only [found, exact, Option.some.injEq] at taken
        subst taken
        have logged : ∀ entry ∈ (name, amount) :: state.allowed, ∃ request, provider.amount request = some entry.2 :=
          List.forall_mem_cons.mpr ⟨⟨request, requested⟩, sound.logged⟩
        by_cases each : provider.perAction = true
        · rw [if_pos each] at unchanged
          have value := read each
          subst unchanged
          rw [value] at bound ⊢
          simp only [if_pos each]
          refine ⟨?_, ?_, ?_, logged, moved.requested, moved.writing⟩
          · exact fun whole => absurd (each.symm.trans whole) (by decide)
          · intro _ other
            exact entries_grow (sound.counts each) name amount other
          · refine ⟨fun whole => absurd (each.symm.trans whole) (by decide), ?_⟩
            intro _ other
            have room := sound.within.2 each other
            rw [spentOn_cons]
            split_ifs with same
            · subst same
              rw [← sound.counts each]
              exact bound
            · omega
        · rw [if_neg each] at unchanged
          have whole := Bool.eq_false_iff.mpr each
          have spending := sound.total whole
          subst unchanged
          simp only [if_neg each]
          refine ⟨?_, ?_, ?_, logged, moved.requested, moved.writing⟩
          · intro _
            rw [spent_cons, ← spending]
            rfl
          · exact fun other => absurd other each
          · refine ⟨?_, fun other => absurd other each⟩
            intro _
            rw [spent_cons, ← spending]
            exact bound
      | reading _ | done _ => simp [found] at taken

theorem sound_start (provider : Provider) : Sound provider start where
  total := fun _ => rfl
  counts := fun _ _ => rfl
  within := ⟨fun _ => Nat.zero_le _, fun _ _ => Nat.zero_le _⟩
  logged := List.forall_mem_nil _
  requested := List.forall_mem_nil _
  writing := fun _ _ _ _ member => nomatch member

theorem run_keeps {actions : List Action} (careful : Careful provider)
    (run : Run (step provider) (Undisturbed provider) start actions after) : Sound provider after := by
  apply run.keeps
  · intro before action next undisturbed sound taken
    exact step_keeps careful undisturbed sound taken
  · exact sound_start provider

end Runs

variable {limit : Nat} {perAction : Bool} {actions : List Action} {last : State}

/-- In runs without disturbance no budget is exceeded. -/
theorem in_memory_budgets_hold :
    (Run (step (budgetProvider limit perAction)) (Undisturbed (budgetProvider limit perAction)) start actions last →
      CallsWithin limit perAction last.allowed) ∧
    (Run (step (spendingBudgetProvider limit perAction)) (Undisturbed (spendingBudgetProvider limit perAction)) start
      actions last → Within limit perAction last.allowed) := by
  constructor
  · intro run
    have sound := run_keeps (budgetProvider_careful limit perAction) run
    have ones : ∀ entry ∈ last.allowed, entry.2 = 1 := by
      intro entry member
      obtain ⟨request, one⟩ := sound.logged entry member
      exact (Option.some.inj one).symm
    exact callsWithin_of_ones ones sound.within
  · exact fun run => (run_keeps (spendingBudgetProvider_careful limit perAction) run).within

/-- A payment of 60 cents. -/
def payment : Request := ⟨lit "pay", .integer 60⟩

/-- Two calls read before either writes. -/
def overlapping : List Action := [.decide payment, .decide payment, .read 0, .read 1, .write 0, .write 1]

/-- One call after the other. -/
def successive : List Action := [.decide payment, .read 0, .write 0, .decide payment, .read 1]

/-- The states that both kinds of budget leave after one allowed call. -/
def oneAllowed (amount : Nat) : State :=
  ⟨amount, [], [⟨lit "pay", .done .allowed⟩, ⟨lit "pay", .done .denied⟩], [(lit "pay", amount)]⟩

/-- A check of the guard. -/
def undisturbed (provider : Provider) (state : State) : Action → Bool
  | .write index =>
      match state.calls[index]? with
      | some ⟨_, .writing used amount counts⟩ =>
          (if provider.perAction then decide (state.counts = counts) else decide (state.total = used)) &&
            decide (nearest (used + amount) = used + amount)
      | _ => true
  | _ => true

theorem undisturbed_sound {provider : Provider} {state : State} {action : Action}
    (checked : undisturbed provider state action = true) : Undisturbed provider state action := by
  cases action with
  | write index =>
    intro name used amount counts found
    simp only [undisturbed, found, Bool.and_eq_true, decide_eq_true_eq] at checked
    refine ⟨?_, checked.2⟩
    split_ifs at checked ⊢ with each
    · exact of_decide_eq_true checked.1
    · exact of_decide_eq_true checked.1
  | _ => trivial

/-- Checked actions are an undisturbed run. -/
theorem undisturbed_run {provider : Provider}
    (played : play (fun before action => if undisturbed provider before action then step provider before action else none)
      start actions = some last) : Run (step provider) (Undisturbed provider) start actions last := by
  apply @Run.of_check _ _ _ _ _ _ _ (undisturbed provider) (fun _ => True)
  · exact fun _ _ _ checked => undisturbed_sound checked
  · exact fun _ _ _ _ _ _ => trivial
  · trivial
  · exact played

theorem in_memory_budgets_hold_sample :
    CallsWithin 1 false (oneAllowed 1).allowed ∧ Within 100 false (oneAllowed 60).allowed := by
  have counted : Run (step (budgetProvider 1 false)) (Undisturbed (budgetProvider 1 false)) start successive
      (oneAllowed 1) := undisturbed_run (by decide +kernel)
  have summed : Run (step (spendingBudgetProvider 100 false)) (Undisturbed (spendingBudgetProvider 100 false)) start
      successive (oneAllowed 60) := undisturbed_run (by decide +kernel)
  exact ⟨in_memory_budgets_hold.1 counted, in_memory_budgets_hold.2 summed⟩

theorem overlapping_exceeds : ¬ ∀ (limit : Nat) (perAction : Bool) (actions : List Action) (last : State),
    (Run (step (budgetProvider limit perAction)) (fun _ _ => True) start actions last →
      CallsWithin limit perAction last.allowed) ∧
    (Run (step (spendingBudgetProvider limit perAction)) (fun _ _ => True) start actions last →
      Within limit perAction last.allowed) := by
  intro all
  have run : Run (step (budgetProvider 1 false)) (fun _ _ => True) start overlapping
      ⟨1, [], [⟨lit "pay", .done .allowed⟩, ⟨lit "pay", .done .allowed⟩], [(lit "pay", 1), (lit "pay", 1)]⟩ := by
    apply Run.of_play (by decide +kernel)
    exact fun _ _ _ => trivial
  have exceeded := ((all 1 false _ _).1 run).1 rfl
  exact absurd exceeded (by decide)

end Tesera.TypeScript.Budgets
