import Tesera.Policy.Budgets
import Tesera.Transition

/-!
The sliding windows: `RateLimitProvider` prunes a queue from its front, and
`FileRateLimitProvider` filters the list in its state file and writes it back. Called one
after another they allow a call exactly if fewer than the limit were allowed in the window
that ends with it.
-/

namespace Tesera.Policy.RateLimit
open Tesera.Policy.Rules (Decision)
open Tesera.Policy.Budgets (Fault)
open Tesera.Transition

variable {Time : Type} [AddCommGroup Time] [LinearOrder Time]

/-- `max_calls` and `window_seconds`, both positive. -/
structure Settings (Time : Type) [Zero Time] [LT Time] where
  maxCalls : Nat
  window : Time
  maxCalls_pos : 0 < maxCalls
  window_pos : 0 < window

/-- The queue once what is before the window has been popped from its front. -/
def prune (settings : Settings Time) (now : Time) (attempts : List Time) : List Time :=
  attempts.dropWhile (fun t => decide (t ≤ now - settings.window))

/-- The part of `RateLimitProvider.decide` under the lock. -/
def lockedDecide (settings : Settings Time) (attempts : List Time) (now : Time) : Decision × List Time :=
  let kept := prune settings now attempts
  if kept.length ≥ settings.maxCalls then (.denied, kept) else (.allowed, kept ++ [now])

/-! ## The state file -/

/-- `state.get("attempts", [])`: items that are no numbers have no time. -/
inductive Attempts (Time : Type) where
  | missing
  | notList
  | list (items : List (Option Time))

/-- What the bytes of the state file are to a reader. -/
inductive Stored (Time : Type) where
  | absent
  | blank
  | corrupt
  | document (attempts : Attempts Time)

/-- The times in the state file; corrupt state has none. -/
def readAttempts : Stored Time → Option (List Time)
  | .absent => some []
  | .blank => some []
  | .corrupt => none
  | .document .missing => some []
  | .document .notList => none
  | .document (.list items) => items.mapM id

/-- `_atomic_write_json`, and the decision where it succeeds. -/
def persist (fault : Fault) (stored : Stored Time) (attempts : List Time) (decision : Decision) : Decision × Stored Time :=
  match fault with
  | .persist => (.denied, stored)
  | _ => (decision, .document (.list (attempts.map some)))

/-- `FileRateLimitProvider.decide`, of a call that holds the locks. -/
def fileDecide (settings : Settings Time) (stored : Stored Time) (now : Time) (fault : Fault) :
    Decision × Stored Time :=
  match fault with
  | .unavailable => (.denied, stored)
  | fault =>
      match readAttempts stored with
      | none => (.denied, stored)
      | some times =>
          let attempts := times.filter (fun t => decide (t > now - settings.window))
          if attempts.length ≥ settings.maxCalls then persist fault stored attempts .denied
          else persist fault stored (attempts ++ [now]) .allowed

/-! ## One call after another -/

/-- The queue, and the times of the allowed calls, the oldest first. -/
structure Queue (Time : Type) where
  attempts : List Time
  allowed : List Time

def Queue.next (settings : Settings Time) (before : Queue Time) (now : Time) : Queue Time :=
  let answer := lockedDecide settings before.attempts now
  ⟨answer.2, if answer.1 = .allowed then before.allowed ++ [now] else before.allowed⟩

def queueAfter (settings : Settings Time) (readings : List Time) : Queue Time :=
  readings.foldl (Queue.next settings) ⟨[], []⟩

/-- The state file after calls whose persists succeed. -/
def storedAfter (settings : Settings Time) (readings : List Time) : Stored Time :=
  readings.foldl (fun stored now => (fileDecide settings stored now .none).2) .absent

/-- The allowed calls in the window that ends at a time. -/
def inWindow (settings : Settings Time) (allowed : List Time) (t : Time) : List Time :=
  allowed.filter (fun s => decide (t - settings.window < s ∧ s ≤ t))

omit [AddCommGroup Time] [LinearOrder Time] in
theorem mapM_some (times : List Time) : (times.map some).mapM id = some times := by
  induction times with
  | nil => rfl
  | cons t times ih => simp [ih]

section Exact
variable [IsOrderedAddMonoid Time] {settings : Settings Time} {readings attempts : List Time} {now : Time}

/-- What is still in the window. -/
def inside (settings : Settings Time) (now : Time) (attempts : List Time) : List Time :=
  attempts.filter (fun t => decide (now - settings.window < t))

omit [IsOrderedAddMonoid Time] in
/-- Popping an ordered queue from its front is filtering it. -/
theorem prune_of_ordered (ordered : attempts.Pairwise (· ≤ ·)) : prune settings now attempts = inside settings now attempts := by
  induction attempts with
  | nil => rfl
  | cons t attempts ih =>
    obtain ⟨least, ordered⟩ := List.pairwise_cons.mp ordered
    simp only [prune, inside] at ih ⊢
    by_cases old : t ≤ now - settings.window
    · rw [List.dropWhile_cons_of_pos (by simpa using old), List.filter_cons_of_neg (by simpa using old)]
      exact ih ordered
    · have kept : ∀ s ∈ t :: attempts, now - settings.window < s := by
        intro s found
        have after : t ≤ s := (List.mem_cons.mp found).elim (fun same => same ▸ le_refl t) (least s)
        exact (not_le.mp old).trans_le after
      rw [List.dropWhile_cons_of_neg (by simpa using old), List.filter_eq_self.mpr]
      intro s found
      simpa using kept s found

omit [IsOrderedAddMonoid Time] in
/-- The file keeps what the queue keeps, and answers as it does. -/
theorem fileDecide_eq {stored : Stored Time} (read : readAttempts stored = some attempts)
    (ordered : attempts.Pairwise (· ≤ ·)) : fileDecide settings stored now .none =
      ((lockedDecide settings attempts now).1, .document (.list ((lockedDecide settings attempts now).2.map some))) := by
  have pruned : prune settings now attempts = inside settings now attempts := prune_of_ordered ordered
  simp only [inside] at pruned
  simp only [fileDecide, read, lockedDecide, pruned]
  split_ifs <;> rfl

/-- What has been forgotten would be outside of the window of every later call. -/
structure Recalled (settings : Settings Time) (readings : List Time) (queue : Queue Time) : Prop where
  ordered : queue.attempts.Pairwise (· ≤ ·)
  attempted : ∀ t ∈ queue.attempts, t ∈ readings
  allowed : ∀ t ∈ queue.allowed, t ∈ readings
  same : ∀ now, (∀ t ∈ readings, t ≤ now) → inside settings now queue.attempts = inside settings now queue.allowed

theorem inside_inside {later : Time} (after : now ≤ later) (times : List Time) :
    inside settings later (inside settings now times) = inside settings later times := by
  simp only [inside, List.filter_filter]
  apply List.filter_congr
  intro t _
  have further : now - settings.window ≤ later - settings.window := sub_le_sub_right after _
  by_cases new : later - settings.window < t
  · simp [new, further.trans_lt new]
  · simp [new]

theorem Recalled.next {queue : Queue Time} (recalled : Recalled settings readings queue) (last : ∀ t ∈ readings, t ≤ now) :
    Recalled settings (readings ++ [now]) (queue.next settings now) := by
  have pruned : prune settings now queue.attempts = inside settings now queue.attempts :=
    prune_of_ordered recalled.ordered
  have subset : ∀ t ∈ inside settings now queue.attempts, t ∈ readings :=
    fun t found => recalled.attempted t (List.mem_of_mem_filter found)
  have ordered : (inside settings now queue.attempts).Pairwise (· ≤ ·) := recalled.ordered.sublist List.filter_sublist
  have later : ∀ time, (∀ t ∈ readings ++ [now], t ≤ time) →
      inside settings time (inside settings now queue.attempts) = inside settings time queue.allowed := by
    intro time bound
    rw [inside_inside (bound now (by simp))]
    exact recalled.same time (fun t found => bound t (by simp [found]))
  simp only [Queue.next, lockedDecide, pruned]
  by_cases full : (inside settings now queue.attempts).length ≥ settings.maxCalls
  · simp only [if_pos full, reduceCtorEq, if_false]
    exact ⟨ordered, fun t found => List.mem_append_left _ (subset t found),
      fun t found => List.mem_append_left _ (recalled.allowed t found), later⟩
  · simp only [if_neg full, if_true]
    refine ⟨?_, ?_, ?_, ?_⟩
    · rw [List.pairwise_append]
      refine ⟨ordered, List.pairwise_singleton _ _, ?_⟩
      intro t found s single
      rw [List.mem_singleton.mp single]
      exact last t (subset t found)
    · intro t found
      exact (List.mem_append.mp found).elim (fun old => List.mem_append_left _ (subset t old)) (List.mem_append_right _)
    · intro t found
      exact (List.mem_append.mp found).elim (fun old => List.mem_append_left _ (recalled.allowed t old)) (List.mem_append_right _)
    · intro time bound
      have before := later time bound
      simp only [inside] at before ⊢
      rw [List.filter_append, List.filter_append, before]

theorem recalled_after (ordered : readings.Pairwise (· ≤ ·)) : Recalled settings readings (queueAfter settings readings) := by
  induction readings using List.reverseRecOn with
  | nil => exact ⟨.nil, by simp [queueAfter], by simp [queueAfter], fun _ _ => rfl⟩
  | append_singleton readings now ih =>
    obtain ⟨before, _, last⟩ := List.pairwise_append.mp ordered
    simp only [queueAfter, List.foldl_append, List.foldl_cons, List.foldl_nil]
    exact (ih before).next (fun t found => last t found now (by simp))

theorem stored_after (ordered : readings.Pairwise (· ≤ ·)) :
    readAttempts (storedAfter settings readings) = some (queueAfter settings readings).attempts := by
  induction readings using List.reverseRecOn with
  | nil => rfl
  | append_singleton readings now ih =>
    have before := (List.pairwise_append.mp ordered).1
    have answer : fileDecide settings (storedAfter settings readings) now .none = _ :=
      fileDecide_eq (ih before) (recalled_after before).ordered
    simp only [storedAfter, queueAfter, List.foldl_append, List.foldl_cons, List.foldl_nil] at answer ⊢
    rw [answer]
    exact mapM_some _

/-- Of calls made one after another, a call is allowed exactly if fewer than the limit were
allowed in the window that ends with it, and the durable provider decides the same. -/
theorem rate_limits_exact (settings : Settings Time) (before : List Time) (now : Time)
    (ordered : (before ++ [now]).Pairwise (· ≤ ·)) :
    ((lockedDecide settings (queueAfter settings before).attempts now).1 = .allowed ↔
      (inWindow settings (queueAfter settings before).allowed now).length < settings.maxCalls) ∧
    (fileDecide settings (storedAfter settings before) now .none).1 =
      (lockedDecide settings (queueAfter settings before).attempts now).1 := by
  obtain ⟨earlier, _, last⟩ := List.pairwise_append.mp ordered
  have recalled : Recalled settings before (queueAfter settings before) := recalled_after earlier
  have bound : ∀ t ∈ before, t ≤ now := fun t found => last t found now (by simp)
  have window : inWindow settings (queueAfter settings before).allowed now = prune settings now (queueAfter settings before).attempts := by
    rw [prune_of_ordered recalled.ordered, recalled.same now bound]
    apply List.filter_congr
    intro t found
    simp [bound t (recalled.allowed t found)]
  constructor
  · rw [window, lockedDecide]
    by_cases full : (prune settings now (queueAfter settings before).attempts).length ≥ settings.maxCalls
    · simp [full]
    · simp [full, not_le.mp full]
  · rw [fileDecide_eq (stored_after earlier) recalled.ordered]

end Exact

/-- Two calls in a window of a hundred. -/
def twoOfHundred : Settings Int where
  maxCalls := 2
  window := 100
  maxCalls_pos := by decide
  window_pos := by decide

theorem rate_limits_exact_sample :
    ((lockedDecide twoOfHundred (queueAfter twoOfHundred [3, 4, 5]).attempts 103).1 = .allowed ↔
      (inWindow twoOfHundred (queueAfter twoOfHundred [3, 4, 5]).allowed 103).length < 2) ∧
    (fileDecide twoOfHundred (storedAfter twoOfHundred [3, 4, 5]) 103 .none).1 =
      (lockedDecide twoOfHundred (queueAfter twoOfHundred [3, 4, 5]).attempts 103).1 :=
  rate_limits_exact twoOfHundred [3, 4, 5] 103 (by decide)

/-! ## Threads

A call reads the clock before it has the lock, so that calls may come to the queue in
another order than that of their readings. -/

/-- Where a call of `RateLimitProvider.decide` is. -/
inductive Phase where
  | waiting
  | inside
  | done (decision : Decision)
  deriving DecidableEq

structure Call (Time : Type) where
  now : Time
  phase : Phase
  deriving DecidableEq

/-- The queue and the calls of all threads. `allowed` are the readings of the allowed calls,
`popped` those that have left the queue, `entered` those of the calls that have had the lock. -/
structure State (Time : Type) where
  clock : Option Time
  locked : Bool
  attempts : List Time
  calls : List (Call Time)
  allowed : List Time
  popped : List Time
  entered : List Time
  deriving DecidableEq

def start : State Time := ⟨none, false, [], [], [], [], []⟩

/-- A thread calls and reads the clock; a call takes the lock; it prunes and appends, and
gives the lock back. -/
inductive Action (Time : Type) where
  | read (now : Time)
  | acquire (call : Nat)
  | decide (call : Nat)

def step (settings : Settings Time) (state : State Time) : Action Time → Option (State Time)
  | .read now =>
      if ∀ before ∈ state.clock, before ≤ now then
        some { state with clock := some now, calls := state.calls ++ [⟨now, .waiting⟩] }
      else none
  | .acquire index =>
      match state.calls[index]? with
      | some ⟨now, .waiting⟩ =>
          if state.locked then none
          else some { state with locked := true, calls := state.calls.set index ⟨now, .inside⟩ }
      | _ => none
  | .decide index =>
      match state.calls[index]? with
      | some ⟨now, .inside⟩ =>
          let answer := lockedDecide settings state.attempts now
          some { state with
            locked := false
            attempts := answer.2
            calls := state.calls.set index ⟨now, .done answer.1⟩
            allowed := if answer.1 = .allowed then now :: state.allowed else state.allowed
            popped := state.attempts.takeWhile (fun t => decide (t ≤ now - settings.window)) ++ state.popped
            entered := now :: state.entered }
      | _ => none

/-- No call that has left the queue is less than a window away from the one that decides. -/
def Remembered (settings : Settings Time) (state : State Time) : Action Time → Prop
  | .decide index => ∀ call ∈ state.calls[index]?, ∀ t ∈ state.popped,
      t ≤ call.now - settings.window ∨ call.now + settings.window ≤ t
  | _ => True

/-- What was allowed is in the queue or has left it, in favour of a call a window later. -/
structure Sound (settings : Settings Time) (state : State Time) : Prop where
  kept : state.allowed.Perm (state.attempts ++ state.popped)
  popped : ∀ t ∈ state.popped, ∃ now ∈ state.entered, t ≤ now - settings.window
  within : ∀ t, (inWindow settings state.allowed t).length ≤ settings.maxCalls

section Threads
variable [IsOrderedAddMonoid Time] {settings : Settings Time} {state next last : State Time}

/-- What is in one window with a call is less than a window away from it. -/
theorem inWindow_apart {popped : List Time} {now t : Time} (member : t - settings.window < now ∧ now ≤ t)
    (apart : ∀ s ∈ popped, s ≤ now - settings.window ∨ now + settings.window ≤ s) : inWindow settings popped t = [] := by
  apply List.filter_eq_nil_iff.mpr
  intro s found
  have outside : ¬ (t - settings.window < s ∧ s ≤ t) := by
    intro ⟨after, before⟩
    apply (apart s found).elim
    · intro old
      exact absurd (old.trans (sub_le_sub_right member.2 _)) (not_le.mpr after)
    · intro new
      exact absurd (new.trans before) (not_le.mpr (sub_lt_iff_lt_add.mp member.1))
  simpa using outside

omit [IsOrderedAddMonoid Time] in
theorem length_inWindow_perm {allowed kept popped : List Time} (same : allowed.Perm (kept ++ popped)) (t : Time) :
    (inWindow settings allowed t).length = (inWindow settings kept t).length + (inWindow settings popped t).length := by
  rw [inWindow, (same.filter _).length_eq, List.filter_append, List.length_append]
  rfl

theorem Sound.decides {index : Nat} (sound : Sound settings state) (remembered : Remembered settings state (.decide index))
    (taken : step settings state (.decide index) = some next) : Sound settings next := by
  simp only [step] at taken
  split at taken
  next now holder =>
    have apart := remembered _ holder
    have split : state.attempts.takeWhile (fun t => decide (t ≤ now - settings.window)) ++
        prune settings now state.attempts = state.attempts := List.takeWhile_append_dropWhile
    have leaving : ∀ t ∈ state.attempts.takeWhile (fun t => decide (t ≤ now - settings.window)), t ≤ now - settings.window :=
      fun t found => by simpa using List.mem_takeWhile_imp found
    generalize state.attempts.takeWhile (fun t => decide (t ≤ now - settings.window)) = gone at taken split leaving
    have kept : state.allowed.Perm (prune settings now state.attempts ++ (gone ++ state.popped)) := by
      apply sound.kept.trans
      rw [← List.append_assoc]
      apply List.Perm.append_right
      have moved : (gone ++ prune settings now state.attempts).Perm (prune settings now state.attempts ++ gone) :=
        List.perm_append_comm
      rw [split] at moved
      exact moved
    have popped : ∀ t ∈ gone ++ state.popped, ∃ later ∈ now :: state.entered, t ≤ later - settings.window := by
      intro t found
      apply (List.mem_append.mp found).elim
      · intro old
        exact ⟨now, List.mem_cons_self, leaving t old⟩
      · intro old
        obtain ⟨later, entered, before⟩ := sound.popped t old
        exact ⟨later, List.mem_cons_of_mem _ entered, before⟩
    have far : ∀ t ∈ gone ++ state.popped, t ≤ now - settings.window ∨ now + settings.window ≤ t := by
      intro t found
      exact (List.mem_append.mp found).elim (fun old => .inl (leaving t old)) (apart t)
    cases taken
    simp only [lockedDecide]
    by_cases full : (prune settings now state.attempts).length ≥ settings.maxCalls
    · simp only [if_pos full, reduceCtorEq, if_false]
      exact ⟨kept, popped, sound.within⟩
    · simp only [if_neg full, if_true]
      refine ⟨?_, popped, ?_⟩
      · rw [List.append_assoc, List.singleton_append]
        exact (kept.cons now).trans List.perm_middle.symm
      · intro t
        by_cases member : t - settings.window < now ∧ now ≤ t
        · have forgotten : inWindow settings (gone ++ state.popped) t = [] := inWindow_apart member far
          have count := @length_inWindow_perm _ _ _ settings _ _ _ kept t
          have bound : (inWindow settings (prune settings now state.attempts) t).length ≤
              (prune settings now state.attempts).length := List.length_filter_le _ _
          rw [forgotten, List.length_nil] at count
          rw [inWindow, List.filter_cons_of_pos (by simpa using member), List.length_cons]
          simp only [inWindow] at count bound
          omega
        · rw [inWindow, List.filter_cons_of_neg (by simpa using member)]
          exact sound.within t
  next => simp at taken

theorem Sound.keeps (sound : Sound settings state) {action : Action Time} (remembered : Remembered settings state action)
    (taken : step settings state action = some next) : Sound settings next := by
  cases action with
  | read now =>
    simp only [step, Option.ite_none_right_eq_some, Option.some.injEq] at taken
    obtain ⟨_, rfl⟩ := taken
    exact ⟨sound.kept, sound.popped, sound.within⟩
  | acquire index =>
    simp only [step] at taken
    split at taken
    next now waits =>
      simp only [Option.ite_none_left_eq_some, Option.some.injEq] at taken
      obtain ⟨_, rfl⟩ := taken
      exact ⟨sound.kept, sound.popped, sound.within⟩
    next => simp at taken
  | decide index => exact sound.decides remembered taken

/-- Calls that come to the queue in the order of their readings find all they need. -/
theorem remembered_of_order (sound : Sound settings state) {index : Nat}
    (order : ∀ call ∈ state.calls[index]?, ∀ now ∈ state.entered, now ≤ call.now) :
    Remembered settings state (.decide index) := by
  intro call found t popped
  obtain ⟨now, entered, before⟩ := sound.popped t popped
  exact .inl (before.trans (sub_le_sub_right (order call found now entered) _))

/-- No window has more allowed calls than the limit, in every state of a run in which no call
decides after a call less than a window away has left the queue. -/
theorem rate_limit_holds (settings : Settings Time) {actions : List (Action Time)}
    (run : Run (step settings) (Remembered settings) start actions last) (t : Time) :
    (inWindow settings last.allowed t).length ≤ settings.maxCalls := by
  have sound : Sound settings last := by
    apply run.keeps (fun _ _ _ remembered sound taken => Sound.keeps sound remembered taken)
    exact ⟨.refl _, by simp [start], by simp [start, inWindow]⟩
  exact sound.within t

end Threads

/-- Three calls one after another, the last when the first two have left the window. -/
def successive : List (Action Int) :=
  [.read 3, .acquire 0, .decide 0, .read 4, .acquire 1, .decide 1, .read 104, .acquire 2, .decide 2]

/-- The third call is overtaken by a fourth, to which the first two are old. -/
def overtaken : List (Action Int) :=
  [.read 3, .acquire 0, .decide 0, .read 4, .acquire 1, .decide 1, .read 5, .read 104, .acquire 3, .decide 3,
    .acquire 2, .decide 2]

instance {settings : Settings Time} {state : State Time} : DecidablePred (Remembered settings state)
  | .decide index => inferInstanceAs (Decidable (∀ call ∈ state.calls[index]?, ∀ t ∈ state.popped,
      t ≤ call.now - settings.window ∨ call.now + settings.window ≤ t))
  | .read _ => .isTrue trivial
  | .acquire _ => .isTrue trivial

def afterSuccessive : State Int :=
  ⟨some 104, false, [104], [⟨3, .done .allowed⟩, ⟨4, .done .allowed⟩, ⟨104, .done .allowed⟩], [104, 4, 3], [3, 4], [104, 4, 3]⟩

def afterOvertaken : State Int :=
  ⟨some 104, false, [104, 5],
    [⟨3, .done .allowed⟩, ⟨4, .done .allowed⟩, ⟨5, .done .allowed⟩, ⟨104, .done .allowed⟩], [5, 104, 4, 3], [3, 4],
    [5, 104, 4, 3]⟩

theorem rate_limit_holds_sample : (inWindow twoOfHundred afterSuccessive.allowed 104).length ≤ 2 := by
  have run : Run (step twoOfHundred) (Remembered twoOfHundred) start successive afterSuccessive := by
    apply @Run.of_check _ _ _ _ _ _ _ (fun before action => decide (Remembered twoOfHundred before action)) (fun _ => True)
    · exact fun _ _ _ checked => of_decide_eq_true checked
    · exact fun _ _ _ _ _ _ => trivial
    · trivial
    · decide +kernel
  exact rate_limit_holds twoOfHundred run 104

theorem overtaken_exceeds : ¬ ∀ (settings : Settings Int) (actions : List (Action Int)) (last : State Int) (t : Int),
    Run (step settings) (fun _ _ => True) start actions last →
      (inWindow settings last.allowed t).length ≤ settings.maxCalls := by
  intro all
  have run : Run (step twoOfHundred) (fun _ _ => True) start overtaken afterOvertaken := by
    apply Run.of_play (by decide +kernel)
    exact fun _ _ _ => trivial
  have exceeded := all twoOfHundred _ _ 5 run
  exact absurd exceeded (by decide)

end Tesera.Policy.RateLimit
