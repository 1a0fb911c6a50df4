import Tesera.Policy.Rules
import Tesera.Transition

/-!
`CachedApprovalProvider`: lookup, inner call and insertion of a decision, with those of other
threads in between. What is answered from the cache was allowed by the inner provider for the
same key less than the time to live before.
-/

namespace Tesera.Policy.Cached
open Tesera.Text.Unicode Tesera.Transition
open Tesera.Policy.Rules (Decision)

/-- The key of a request in the cache. -/
structure Key where
  contractHash : Str
  inputHash : Str
  risk : Str
  approvalMode : Str
  spendCents : Option Int
  deriving DecidableEq

variable {Time : Type} [AddCommGroup Time] [LinearOrder Time]

/-- `ttl_seconds` and `max_entries`, both positive. -/
structure Settings (Time : Type) [Zero Time] [LT Time] where
  ttl : Time
  maxEntries : Nat
  ttl_pos : 0 < ttl
  maxEntries_pos : 0 < maxEntries

/-- A dict with its entries in the order of insertion: when they expire. -/
abbrev Cache (Time : Type) := List (Key × Time)

/-- `cache[key] = expires`. An entry that is there keeps its place. -/
def assign (cache : Cache Time) (key : Key) (expires : Time) : Cache Time :=
  if key ∈ cache.map Prod.fst then cache.map (fun entry => if entry.1 = key then (key, expires) else entry)
  else cache ++ [(key, expires)]

/-- Without what has expired. -/
def sweep (now : Time) (cache : Cache Time) : Cache Time :=
  cache.filter (fun entry => decide (now < entry.2))

/-- Pop the oldest entry while there are that many. -/
def evict (bound : Nat) : Cache Time → Cache Time
  | [] => []
  | entry :: cache => if (entry :: cache).length ≥ bound then evict bound cache else entry :: cache

/-- Sweep and evict before the inner provider is asked, so that there is room for an entry. -/
def makeRoom (settings : Settings Time) (now : Time) (cache : Cache Time) : Cache Time :=
  evict settings.maxEntries (if cache.length ≥ settings.maxEntries then sweep now cache else cache)

/-- The first critical section of `decide`, and whether it answers. -/
def lookUp (settings : Settings Time) (cache : Cache Time) (key : Key) (now : Time) : Bool × Cache Time :=
  match cache.lookup key with
  | none => (false, makeRoom settings now cache)
  | some expires =>
      if expires > now then (true, cache)
      else (false, makeRoom settings now (cache.filter (fun entry => decide (entry.1 ≠ key))))

/-- Sweep and evict after an insertion that has left too many entries. -/
def trim (settings : Settings Time) (now : Time) (cache : Cache Time) : Cache Time :=
  evict (settings.maxEntries + 1) (sweep now cache)

/-! ## Threads -/

/-- What a call returns; the inner provider may raise. -/
inductive Answer where
  | cached
  | inner (decision : Decision)
  | raised
  deriving DecidableEq

/-- Where a call of `decide` is. One that is `trimming` has the lock. -/
inductive Phase (Time : Type) where
  | looking (now : Time)
  | asking
  | inserting
  | trimming
  | done (answer : Answer)
  deriving DecidableEq

structure Call (Time : Type) where
  key : Key
  phase : Phase Time
  deriving DecidableEq

/-- What has happened: an answer from the cache at a reading of the clock, an answer of the
inner provider or its exception, an insertion at a reading of the clock. -/
inductive Event (Time : Type) where
  | cached (call : Nat) (key : Key) (now : Time)
  | asked (call : Nat) (key : Key) (decision : Option Decision)
  | inserted (call : Nat) (key : Key) (now : Time)
  deriving DecidableEq

/-- The cache and the calls of all threads, with the history, the latest event first. -/
structure State (Time : Type) where
  clock : Option Time
  locked : Bool
  cache : Cache Time
  calls : List (Call Time)
  history : List (Event Time)
  deriving DecidableEq

def start : State Time := ⟨none, false, [], [], []⟩

/-- A thread calls and reads the clock; looks the key up under the lock; has the inner provider's
answer; takes the lock, reads the clock and inserts; and gives the lock back, at once or
after another reading of the clock. -/
inductive Action (Time : Type) where
  | read (key : Key) (now : Time)
  | look (call : Nat)
  | ask (call : Nat) (decision : Option Decision)
  | insert (call : Nat) (now : Time)
  | leave (call : Nat)
  | trim (call : Nat) (now : Time)

/-- The clock does not go back. -/
def State.Follows (state : State Time) (now : Time) : Prop := ∀ before ∈ state.clock, before ≤ now

instance (state : State Time) (now : Time) : Decidable (state.Follows now) :=
  inferInstanceAs (Decidable (∀ before ∈ state.clock, before ≤ now))

/-- Where a call is once the inner provider has answered. -/
def afterAsking : Option Decision → Phase Time
  | some .allowed => .inserting
  | some .denied => .done (.inner .denied)
  | none => .done .raised

def State.move (state : State Time) (index : Nat) (key : Key) (phase : Phase Time) : State Time :=
  { state with calls := state.calls.set index ⟨key, phase⟩ }

def step (settings : Settings Time) (state : State Time) : Action Time → Option (State Time)
  | .read key now =>
      if state.Follows now then
        some { state with clock := some now, calls := state.calls ++ [⟨key, .looking now⟩] }
      else none
  | .look index =>
      match state.calls[index]? with
      | some ⟨key, .looking now⟩ =>
          if state.locked then none
          else
            let (answered, cache) := lookUp settings state.cache key now
            if answered then
              some { state.move index key (.done .cached) with history := .cached index key now :: state.history }
            else some { state.move index key .asking with cache := cache }
      | _ => none
  | .ask index decision =>
      match state.calls[index]? with
      | some ⟨key, .asking⟩ =>
          some { state.move index key (afterAsking decision) with history := .asked index key decision :: state.history }
      | _ => none
  | .insert index now =>
      match state.calls[index]? with
      | some ⟨key, .inserting⟩ =>
          if state.locked = false ∧ state.Follows now then
            some { state.move index key .trimming with
              clock := some now
              locked := true
              cache := assign state.cache key (now + settings.ttl)
              history := .inserted index key now :: state.history }
          else none
      | _ => none
  | .leave index =>
      match state.calls[index]? with
      | some ⟨key, .trimming⟩ =>
          if state.cache.length > settings.maxEntries then none
          else some { state.move index key (.done (.inner .allowed)) with locked := false }
      | _ => none
  | .trim index now =>
      match state.calls[index]? with
      | some ⟨key, .trimming⟩ =>
          if state.cache.length > settings.maxEntries ∧ state.Follows now then
            some { state.move index key (.done (.inner .allowed)) with
              clock := some now
              locked := false
              cache := trim settings now state.cache }
          else none
      | _ => none

/-! ## The cache -/

section Entries
variable {cache : Cache Time} {settings : Settings Time} {key : Key} {entry : Key × Time} {now : Time}

omit [AddCommGroup Time] [LinearOrder Time] in
theorem evict_sublist (bound : Nat) (cache : Cache Time) : (evict bound cache).Sublist cache := by
  induction cache with
  | nil => exact .refl _
  | cons entry cache ih =>
    simp only [evict]
    split_ifs
    · exact ih.cons entry
    · exact .refl _

omit [AddCommGroup Time] [LinearOrder Time] in
theorem evict_length {bound : Nat} (positive : 0 < bound) (cache : Cache Time) : (evict bound cache).length < bound := by
  induction cache with
  | nil => exact positive
  | cons entry cache ih =>
    simp only [evict]
    split_ifs with many
    · exact ih
    · exact Nat.not_le.mp many

theorem mem_makeRoom (member : entry ∈ makeRoom settings now cache) : entry ∈ cache := by
  have kept := (evict_sublist _ _).mem member
  split_ifs at kept
  · exact List.mem_of_mem_filter kept
  · exact kept

theorem mem_lookUp (member : entry ∈ (lookUp settings cache key now).2) : entry ∈ cache := by
  unfold lookUp at member
  split at member
  next => exact mem_makeRoom member
  next =>
    split_ifs at member
    · exact member
    · exact List.mem_of_mem_filter (mem_makeRoom member)

/-- An answer from the cache has an entry that has not expired. -/
theorem entry_of_answered (answered : (lookUp settings cache key now).1 = true) :
    ∃ expires, (key, expires) ∈ cache ∧ now < expires := by
  unfold lookUp at answered
  split at answered
  next => simp at answered
  next expires found =>
    split_ifs at answered with fresh
    obtain ⟨before, after, same, _⟩ := List.lookup_eq_some_iff.mp found
    refine ⟨expires, ?_, fresh⟩
    rw [same]
    simp

theorem lookUp_length (within : cache.length ≤ settings.maxEntries) :
    (lookUp settings cache key now).2.length ≤ settings.maxEntries := by
  have room : ∀ rest : Cache Time, (makeRoom settings now rest).length ≤ settings.maxEntries :=
    fun rest => le_of_lt (evict_length settings.maxEntries_pos _)
  unfold lookUp
  split
  next => exact room _
  next =>
    split_ifs
    · exact within
    · exact room _

theorem mem_trim (member : entry ∈ trim settings now cache) : entry ∈ cache :=
  List.mem_of_mem_filter ((evict_sublist _ _).mem member)

theorem trim_length : (trim settings now cache).length ≤ settings.maxEntries :=
  Nat.lt_succ_iff.mp (evict_length (Nat.succ_pos _) _)

omit [AddCommGroup Time] [LinearOrder Time] in
theorem mem_assign {expires : Time} (member : entry ∈ assign cache key expires) : entry = (key, expires) ∨ entry ∈ cache := by
  unfold assign at member
  split_ifs at member
  · obtain ⟨old, found, same⟩ := List.mem_map.mp member
    split_ifs at same
    · exact .inl same.symm
    · exact .inr (same ▸ found)
  · exact (List.mem_append.mp member).elim .inr (fun new => .inl (List.mem_singleton.mp new))

end Entries

/-! ## Provenance -/

/-- A call that the inner provider had allowed has inserted the key at that reading. -/
def Approved (history : List (Event Time)) (key : Key) (now : Time) : Prop :=
  ∃ call, .inserted call key now ∈ history ∧ .asked call key (some .allowed) ∈ history

omit [AddCommGroup Time] [LinearOrder Time] in
theorem Approved.cons {history : List (Event Time)} {key : Key} {now : Time} (approved : Approved history key now)
    (event : Event Time) : Approved (event :: history) key now := by
  obtain ⟨call, inserted, asked⟩ := approved
  exact ⟨call, List.mem_cons_of_mem _ inserted, List.mem_cons_of_mem _ asked⟩

/-- The answer of the inner provider, if the call has it. -/
def Phase.answer : Phase Time → Option (Option Decision)
  | .looking _ => none
  | .asking => none
  | .inserting => some (some .allowed)
  | .trimming => some (some .allowed)
  | .done .cached => none
  | .done (.inner decision) => some (some decision)
  | .done .raised => some none

/-- The calls that have an answer of the inner provider are those for which it is in the history. -/
structure Matched (calls : List (Call Time)) (history : List (Event Time)) : Prop where
  asked : ∀ call key decision, .asked call key decision ∈ history →
    ∃ phase, calls[call]? = some ⟨key, phase⟩ ∧ phase.answer = some decision
  answered : ∀ call key phase, calls[call]? = some ⟨key, phase⟩ → ∀ decision ∈ phase.answer,
    .asked call key decision ∈ history

section Calls
variable {calls : List (Call Time)} {index other : Nat} {key : Key} {before after : Phase Time} {history : List (Event Time)}
omit [AddCommGroup Time] [LinearOrder Time]

theorem set_self (here : calls[index]? = some ⟨key, before⟩) : (calls.set index ⟨key, after⟩)[index]? = some ⟨key, after⟩ := by
  obtain ⟨bound, _⟩ := List.getElem?_eq_some_iff.mp here
  exact List.getElem?_set_self bound

theorem Matched.append (matched : Matched calls history) (key : Key) (now : Time) :
    Matched (calls ++ [⟨key, .looking now⟩]) history := by
  constructor
  · intro call askedKey decision asked
    obtain ⟨phase, here, answer⟩ := matched.asked call askedKey decision asked
    obtain ⟨bound, _⟩ := List.getElem?_eq_some_iff.mp here
    exact ⟨phase, by rw [List.getElem?_append_left bound, here], answer⟩
  · intro call callKey phase here decision answer
    by_cases old : call < calls.length
    · rw [List.getElem?_append_left old] at here
      exact matched.answered call callKey phase here decision answer
    · have last : call = calls.length := by
        have bound := (List.getElem?_eq_some_iff.mp here).choose
        simp only [List.length_append, List.length_singleton] at bound
        omega
      subst last
      simp only [List.getElem?_concat_length, Option.some.injEq, Call.mk.injEq] at here
      rw [← here.2] at answer
      simp [Phase.answer] at answer

theorem Matched.cons (matched : Matched calls history) {event : Event Time}
    (other : ∀ call key decision, event ≠ .asked call key decision) : Matched calls (event :: history) := by
  constructor
  · intro call key decision asked
    have old := (List.mem_cons.mp asked).resolve_left (fun same => other call key decision same.symm)
    exact matched.asked call key decision old
  · intro call key phase here decision answer
    exact List.mem_cons_of_mem _ (matched.answered call key phase here decision answer)

/-- A call that goes on with the same answer, or none. -/
theorem Matched.move (matched : Matched calls history) (here : calls[index]? = some ⟨key, before⟩)
    (same : after.answer = before.answer) : Matched (calls.set index ⟨key, after⟩) history := by
  constructor
  · intro call askedKey decision asked
    obtain ⟨phase, there, answer⟩ := matched.asked call askedKey decision asked
    by_cases moved : index = call
    · subst moved
      rw [here] at there
      cases there
      exact ⟨after, set_self here, same.trans answer⟩
    · exact ⟨phase, by rw [List.getElem?_set_ne moved, there], answer⟩
  · intro call callKey phase there decision answer
    by_cases moved : index = call
    · subst moved
      rw [set_self here] at there
      cases there
      rw [same] at answer
      exact matched.answered index key before here decision answer
    · rw [List.getElem?_set_ne moved] at there
      exact matched.answered call callKey phase there decision answer

/-- A call that gets its answer. -/
theorem Matched.ask (matched : Matched calls history) (here : calls[index]? = some ⟨key, .asking⟩) (decision : Option Decision) :
    Matched (calls.set index ⟨key, afterAsking decision⟩) (.asked index key decision :: history) := by
  have answer : (afterAsking decision : Phase Time).answer = some decision := by
    rcases decision with _ | _ | _ <;> rfl
  have unasked : ∀ askedKey answer, .asked index askedKey answer ∉ history := by
    intro askedKey answer asked
    obtain ⟨phase, there, has⟩ := matched.asked index askedKey answer asked
    rw [here] at there
    cases there
    simp [Phase.answer] at has
  constructor
  · intro call askedKey given asked
    apply (List.mem_cons.mp asked).elim
    · intro new
      cases new
      exact ⟨_, set_self here, answer⟩
    · intro old
      obtain ⟨phase, there, has⟩ := matched.asked call askedKey given old
      have apart : index ≠ call := by
        intro same
        exact unasked askedKey given (same ▸ old)
      exact ⟨phase, by rw [List.getElem?_set_ne apart, there], has⟩
  · intro call callKey phase there given has
    by_cases moved : index = call
    · subst moved
      rw [set_self here] at there
      cases there
      rw [answer] at has
      cases has
      exact List.mem_cons_self
    · rw [List.getElem?_set_ne moved] at there
      exact List.mem_cons_of_mem _ (matched.answered call callKey phase there given has)

end Calls

/-- Every entry and every answer from the cache goes back to an insertion, and that to an inner
allow; there are too many entries only while the lock is held. -/
structure Sound (settings : Settings Time) (state : State Time) : Prop where
  entries : ∀ entry ∈ state.cache, ∃ now, entry.2 = now + settings.ttl ∧ Approved state.history entry.1 now
  cached : ∀ after call key t before, state.history = after ++ .cached call key t :: before →
    ∃ now, t - settings.ttl < now ∧ Approved before key now
  matched : Matched state.calls state.history
  size : state.locked = false → state.cache.length ≤ settings.maxEntries
  holder : state.locked = true → ∃ (index : Nat) (key : Key), state.calls[index]? = some ⟨key, .trimming⟩

section Steps
variable [IsOrderedAddMonoid Time] {settings : Settings Time} {state next last : State Time}

omit [IsOrderedAddMonoid Time] in
/-- An event that is no answer from the cache leaves those that were given. -/
theorem cached_cons {history : List (Event Time)} {event : Event Time}
    (cached : ∀ after call key t before, history = after ++ .cached call key t :: before →
      ∃ now, t - settings.ttl < now ∧ Approved before key now)
    (new : ∀ call key t, event = .cached call key t → ∃ now, t - settings.ttl < now ∧ Approved history key now) :
    ∀ after call key t before, event :: history = after ++ .cached call key t :: before →
      ∃ now, t - settings.ttl < now ∧ Approved before key now := by
  intro after call key t before split
  cases after with
  | nil =>
    obtain ⟨same, rest⟩ := List.cons.inj split
    exact rest ▸ new call key t same
  | cons first after => exact cached after call key t before (List.cons.inj split).2

omit [IsOrderedAddMonoid Time] in
theorem entries_cons {cache : Cache Time} {history : List (Event Time)} (event : Event Time)
    (entries : ∀ entry ∈ cache, ∃ now, entry.2 = now + settings.ttl ∧ Approved history entry.1 now) :
    ∀ entry ∈ cache, ∃ now, entry.2 = now + settings.ttl ∧ Approved (event :: history) entry.1 now := by
  intro entry found
  obtain ⟨now, expires, approved⟩ := entries entry found
  exact ⟨now, expires, approved.cons event⟩

omit [IsOrderedAddMonoid Time] in
/-- The holder of the lock stays while another call goes on. -/
theorem holder_move {calls : List (Call Time)} {index : Nat} {key : Key} {before after : Phase Time}
    (here : calls[index]? = some ⟨key, before⟩) (other : before ≠ .trimming)
    (holder : ∃ (index : Nat) (key : Key), calls[index]? = some ⟨key, .trimming⟩) :
    ∃ (holding : Nat) (held : Key), (calls.set index ⟨key, after⟩)[holding]? = some ⟨held, .trimming⟩ := by
  obtain ⟨holding, held, there⟩ := holder
  have apart : index ≠ holding := by
    intro same
    subst same
    rw [here] at there
    cases there
    exact other rfl
  exact ⟨holding, held, by rw [List.getElem?_set_ne apart, there]⟩

theorem Sound.looks {index : Nat} (sound : Sound settings state) (taken : step settings state (.look index) = some next) :
    Sound settings next := by
  simp only [step] at taken
  split at taken
  next key now here =>
    split_ifs at taken with locked answered
    · obtain ⟨expires, found, fresh⟩ := entry_of_answered answered
      obtain ⟨inserted, expiry, approved⟩ := sound.entries _ found
      have recent : now - settings.ttl < inserted := by
        apply sub_lt_iff_lt_add.mpr
        exact expiry ▸ fresh
      have matched : Matched (state.calls.set index ⟨key, .done .cached⟩) state.history := sound.matched.move here rfl
      cases taken
      refine ⟨entries_cons _ sound.entries, ?_, ?_, sound.size, ?_⟩
      · apply cached_cons sound.cached
        intro call cachedKey t same
        cases same
        exact ⟨inserted, recent, approved⟩
      · apply matched.cons
        simp
      · exact fun held => absurd held locked
    · cases taken
      refine ⟨?_, sound.cached, sound.matched.move here rfl, ?_, ?_⟩
      · exact fun entry found => sound.entries entry (mem_lookUp found)
      · exact fun free => lookUp_length (sound.size free)
      · exact fun held => absurd held locked
  next => simp at taken

omit [IsOrderedAddMonoid Time] in
theorem Sound.asks {index : Nat} {decision : Option Decision} (sound : Sound settings state)
    (taken : step settings state (.ask index decision) = some next) : Sound settings next := by
  simp only [step] at taken
  split at taken
  next key here =>
    cases taken
    refine ⟨entries_cons _ sound.entries, ?_, sound.matched.ask here decision, sound.size, ?_⟩
    · exact cached_cons sound.cached (by simp)
    · exact fun held => holder_move here (by simp) (sound.holder held)
  next => simp at taken

omit [IsOrderedAddMonoid Time] in
theorem Sound.inserts {index : Nat} {now : Time} (sound : Sound settings state)
    (taken : step settings state (.insert index now) = some next) : Sound settings next := by
  simp only [step] at taken
  split at taken
  next key here =>
    simp only [Option.ite_none_right_eq_some, Option.some.injEq] at taken
    obtain ⟨_, rfl⟩ := taken
    have asked : .asked index key (some .allowed) ∈ state.history := sound.matched.answered index key _ here _ rfl
    have matched : Matched (state.calls.set index ⟨key, .trimming⟩) state.history := sound.matched.move here rfl
    refine ⟨?_, cached_cons sound.cached (by simp), ?_, by simp, ?_⟩
    · intro entry found
      apply (mem_assign found).elim
      · intro new
        subst new
        exact ⟨now, rfl, index, List.mem_cons_self, List.mem_cons_of_mem _ asked⟩
      · exact entries_cons _ sound.entries entry
    · apply matched.cons
      simp
    · exact fun _ => ⟨index, key, set_self here⟩
  next => simp at taken

omit [IsOrderedAddMonoid Time] in
theorem Sound.releases {index : Nat} {key : Key} {clock : Option Time} {cache : Cache Time} (sound : Sound settings state)
    (here : state.calls[index]? = some ⟨key, .trimming⟩) (within : cache.length ≤ settings.maxEntries)
    (subset : ∀ entry ∈ cache, entry ∈ state.cache) : Sound settings
      { state.move index key (.done (.inner .allowed)) with clock := clock, locked := false, cache := cache } := by
  refine ⟨?_, sound.cached, sound.matched.move here rfl, fun _ => within, by simp⟩
  exact fun entry found => sound.entries entry (subset entry found)

theorem Sound.keeps (sound : Sound settings state) {action : Action Time} (taken : step settings state action = some next) :
    Sound settings next := by
  cases action with
  | read key now =>
    simp only [step, Option.ite_none_right_eq_some, Option.some.injEq] at taken
    obtain ⟨_, rfl⟩ := taken
    refine ⟨sound.entries, sound.cached, sound.matched.append key now, sound.size, ?_⟩
    intro held
    obtain ⟨index, holding, here⟩ := sound.holder held
    obtain ⟨bound, _⟩ := List.getElem?_eq_some_iff.mp here
    exact ⟨index, holding, by rw [List.getElem?_append_left bound, here]⟩
  | look index => exact sound.looks taken
  | ask index decision => exact sound.asks taken
  | insert index now => exact sound.inserts taken
  | leave index =>
    simp only [step] at taken
    split at taken
    next key here =>
      simp only [Option.ite_none_left_eq_some, Option.some.injEq] at taken
      obtain ⟨few, rfl⟩ := taken
      exact sound.releases here (Nat.not_lt.mp few) (fun _ found => found)
    next => simp at taken
  | trim index now =>
    simp only [step] at taken
    split at taken
    next key here =>
      simp only [Option.ite_none_right_eq_some, Option.some.injEq] at taken
      obtain ⟨_, rfl⟩ := taken
      exact sound.releases here trim_length (fun _ found => mem_trim found)
    next => simp at taken

/-- No call is in progress. -/
def State.Idle (state : State Time) : Prop := ∀ call ∈ state.calls, ∃ answer, call.phase = .done answer

/-- In every run, an answer from the cache goes back to an inner allow of another call for its key,
whose insertion is more recent than the time to live, and a denial that came before is that
of another call; and while no call is in progress the cache is within its bound. -/
theorem cached_approvals (settings : Settings Time) {actions : List (Action Time)}
    (run : Run (step settings) (fun _ _ => True) start actions last) :
    (∀ after call key t before, last.history = after ++ .cached call key t :: before →
      (∃ now, t - settings.ttl < now ∧ Approved before key now) ∧
      ∀ denied, .asked denied key (some .denied) ∈ before →
        ∃ allowed, allowed ≠ denied ∧ .asked allowed key (some .allowed) ∈ before) ∧
    (last.Idle → last.cache.length ≤ settings.maxEntries) := by
  have sound : Sound settings last := by
    apply run.keeps (fun _ _ _ _ sound taken => Sound.keeps sound taken)
    exact ⟨by simp [start], by simp [start], ⟨by simp [start], by simp [start]⟩, by simp [start], by simp [start]⟩
  constructor
  · intro after call key t before split
    have source := sound.cached after call key t before split
    refine ⟨source, ?_⟩
    intro denied refused
    obtain ⟨now, _, allowed, _, asked⟩ := source
    have before_history : ∀ event ∈ before, event ∈ last.history := by
      intro event found
      rw [split]
      exact List.mem_append_right _ (List.mem_cons_of_mem _ found)
    refine ⟨allowed, ?_, asked⟩
    intro same
    subst same
    obtain ⟨first, here, answer⟩ := sound.matched.asked allowed key _ (before_history _ asked)
    obtain ⟨second, there, other⟩ := sound.matched.asked allowed key _ (before_history _ refused)
    rw [here] at there
    cases there
    rw [answer] at other
    simp at other
  · intro idle
    apply sound.size
    by_contra held
    obtain ⟨index, key, here⟩ := sound.holder (by simpa using held)
    obtain ⟨answer, done⟩ := idle _ (List.mem_of_getElem? here)
    simp at done

end Steps

def keyOf (spendCents : Option Int) : Key :=
  ⟨lit "c", lit "i", lit "high", lit "always", spendCents⟩

/-- Ten units to live, and one entry. -/
def tenUnits : Settings Int where
  ttl := 10
  maxEntries := 1
  ttl_pos := by decide
  maxEntries_pos := by decide

/-- Two calls for one key are denied and allowed while both have found the cache empty; a third
is answered from the cache, while that holds the entry of another key as well. -/
def crossing : List (Action Int) :=
  [.read (keyOf none) 1, .read (keyOf none) 2, .read (keyOf (some 5)) 2, .look 0, .look 1, .look 2,
    .ask 0 (some .denied), .ask 1 (some .allowed), .ask 2 (some .allowed), .insert 1 3, .leave 1,
    .read (keyOf none) 12, .look 3, .insert 2 12, .trim 2 13]

def afterCrossing : State Int :=
  ⟨some 13, false, [(keyOf (some 5), 22)],
    [⟨keyOf none, .done (.inner .denied)⟩, ⟨keyOf none, .done (.inner .allowed)⟩,
      ⟨keyOf (some 5), .done (.inner .allowed)⟩, ⟨keyOf none, .done .cached⟩],
    [.inserted 2 (keyOf (some 5)) 12, .cached 3 (keyOf none) 12, .inserted 1 (keyOf none) 3,
      .asked 2 (keyOf (some 5)) (some .allowed), .asked 1 (keyOf none) (some .allowed),
      .asked 0 (keyOf none) (some .denied)]⟩

theorem cached_approvals_sample : (afterCrossing.Idle → afterCrossing.cache.length ≤ 1) ∧
    ∃ now, 12 - 10 < now ∧ Approved (afterCrossing.history.drop 2) (keyOf none) now := by
  have run : Run (step tenUnits) (fun _ _ => True) start crossing afterCrossing := by
    apply Run.of_play (by decide +kernel)
    exact fun _ _ _ => trivial
  have facts := cached_approvals tenUnits run
  have sound := facts.1 [.inserted 2 (keyOf (some 5)) 12] 3 (keyOf none) 12 (afterCrossing.history.drop 2) rfl
  exact ⟨facts.2, sound.1⟩

end Tesera.Policy.Cached
