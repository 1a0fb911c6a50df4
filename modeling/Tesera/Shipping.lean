import Tesera.Transition
import Tesera.Verification.Presence

/-!
`FanoutJournalStore`: each append is made under the lock of the primary, and the event is
then sent to one sink after another outside it. What a sink has received and what the
calls still owe it are, in the order of the appends, the events of the primary, as long
as no call overtakes another on its way to a sink and no failure ends a call's shipping
before a later sink.
-/

namespace Tesera.Shipping
open Tesera.Transition Tesera.Text Tesera.Text.Unicode Tesera.Text.Lines Tesera.Python.Value
open Tesera.Journal.Record Tesera.Journal.Tail Tesera.Journal.Idempotency Tesera.Journal.Append
open Tesera.Verification.Journal

/-- `on_ship_failure`. -/
inductive Policy where
  | raise
  | ignore
  deriving DecidableEq

/-- A call of `append_event` or `append_event_atomic`, with its builder. -/
inductive Request where
  | event (build : Option Str → Except PyError Dict)
  | atomic (query : Option (Str × Str)) (build : Option Str → Option Str → Except PyError Dict)

structure Setup where
  host : Host
  useIndex : Bool
  name : String
  policy : Policy
  sinks : Nat
  requests : Nat → Request

/-- The append of the primary, with the tables of the keys. -/
def Request.append (setup : Setup) (cache : IdemCache) (journal : Bytes) :
    Request → Except PyError (Appended × IdemCache)
  | .event build =>
      (appendEvent setup.host setup.name (some journal) build).map (fun appended =>
        (appended, noteIdemAppend setup.useIndex cache appended.event journal.length appended.previous
          appended.content.length (asStr (get appended.event "event_hash"))))
  | .atomic query build =>
      appendEventAtomic setup.host setup.useIndex setup.name cache (some journal) query build

/-- A call: before its append, with the event it appended and the sink whose turn it is,
or over. -/
inductive Call where
  | ready
  | shipping (event : Dict) (sink : Nat)
  | returned (event : Dict)
  | raised

/-- What becomes of a sink's `send`. -/
inductive Sent where
  | returns
  | raises
  | shipError
  | interrupted

/-- The primary and its tables, the calls, those that have appended in the order of their
turns at the lock, what each sink has received, and whether a `send` of it has failed. -/
structure State where
  journal : Bytes
  cache : IdemCache
  calls : Nat → Call
  order : List Nat
  received : Nat → List Dict
  failed : Nat → Bool

/-- The steps of a call. The primary's append may break after it has written some bytes. -/
inductive Action where
  | append (n : Nat)
  | breaks (n : Nat) (written : Bytes)
  | send (n : Nat) (sent : Sent)
  | finish (n : Nat)

/-- Whether `_ship` ends at a `send`. -/
def Sent.ends (policy : Policy) : Sent → Bool
  | .returns => false
  | .raises => policy == .raise
  | .shipError => true
  | .interrupted => true

/-- A `send` that returns. -/
def State.deliver (state : State) (n : Nat) (event : Dict) (sink : Nat) : State :=
  { state with
    calls := Function.update state.calls n (.shipping event (sink + 1))
    received := Function.update state.received sink (state.received sink ++ [event]) }

/-- A `send` that fails; the call goes on to the next sink or raises. -/
def State.refuse (state : State) (n : Nat) (sink : Nat) (call : Call) : State :=
  { state with calls := Function.update state.calls n call, failed := Function.update state.failed sink true }

/-- What a `send` leaves; a call whose shipping ends raises. -/
def State.shipped (state : State) (policy : Policy) (n : Nat) (event : Dict) (sink : Nat) : Sent → State
  | .returns => state.deliver n event sink
  | sent => state.refuse n sink (if sent.ends policy then .raised else .shipping event (sink + 1))

/-- One step. -/
def step (setup : Setup) (state : State) : Action → Option State
  | .append n =>
      match state.calls n with
      | .ready =>
          match (setup.requests n).append setup state.cache state.journal with
          | .ok (appended, cache) =>
              some { state with
                journal := appended.content
                cache := cache
                calls := Function.update state.calls n (.shipping appended.event 0)
                order := state.order ++ [n] }
          | .error _ => some { state with calls := Function.update state.calls n .raised }
      | _ => none
  | .breaks n written =>
      match state.calls n with
      | .ready =>
          some { state with journal := state.journal ++ written, calls := Function.update state.calls n .raised }
      | _ => none
  | .send n sent =>
      match state.calls n with
      | .shipping event sink =>
          if sink < setup.sinks then some (state.shipped setup.policy n event sink sent) else none
      | _ => none
  | .finish n =>
      match state.calls n with
      | .shipping event sink =>
          if sink = setup.sinks then some { state with calls := Function.update state.calls n (.returned event) }
          else none
      | _ => none

/-- The event a call still has to send to a sink. -/
def Call.owes (sink : Nat) : Call → Option Dict
  | .shipping event next => if next ≤ sink then some event else none
  | _ => none

def Call.isShipping : Call → Bool
  | .shipping _ _ => true
  | _ => false

/-- The steps that neither overtake nor leave out: a call sends to a sink when the calls
that appended before it have nothing to send to it any more; a failure ends a call's
shipping where every later sink has failed; an append that breaks has written nothing. -/
def InTurn (setup : Setup) (state : State) : Action → Prop
  | .append _ => True
  | .breaks _ written => written = []
  | .send n sent => ∀ event sink, state.calls n = .shipping event sink →
      (∀ earlier ∈ state.order.takeWhile (fun m => m != n), (state.calls earlier).owes sink = none) ∧
        (sent.ends setup.policy = true → ∀ later, sink < later → later < setup.sinks → state.failed later = true)
  | .finish _ => True

/-- The file a list of events makes, one line each; a mirror writes the same. -/
def mirror (host : Host) (events : List Dict) : Bytes :=
  events.flatMap (fun event => (encodeEvent host event).toOption.getD [] ++ [10])

/-- Before any call: every sink has what the primary has. -/
structure Starts (setup : Setup) (state : State) : Prop where
  calls : ∀ n, state.calls n = .ready
  order : state.order = []
  same : ∀ sink < setup.sinks, state.journal = mirror setup.host (state.received sink)

/-- The events that calls still have to send to a sink, in their order. -/
def owed (calls : Nat → Call) (sink : Nat) (order : List Nat) : List Dict :=
  order.filterMap (fun n => (calls n).owes sink)

/-- Each sink that never failed has received the events of the primary up to those the
calls still have to send to it. -/
structure Inv (setup : Setup) (state : State) : Prop where
  once : state.order.Nodup
  fresh : ∀ n, state.calls n = .ready → n ∉ state.order
  known : ∀ n, (state.calls n).isShipping = true → n ∈ state.order
  holds : ∀ sink < setup.sinks, state.failed sink = false →
    state.journal = mirror setup.host (state.received sink ++ owed state.calls sink state.order)

/-! ## What the calls owe a sink -/

section Owed

variable {calls : Nat → Call} {call : Call} {n sink : Nat} {order before later : List Nat} {host : Host}

theorem mirror_append (host : Host) (events more : List Dict) :
    mirror host (events ++ more) = mirror host events ++ mirror host more :=
  List.flatMap_append

theorem mirror_singleton {event : Dict} {line : Bytes} (encoded : encodeEvent host event = .ok line) :
    mirror host [event] = line ++ [10] := by
  simp [mirror, encoded, Except.toOption]

theorem owed_append (calls : Nat → Call) (sink : Nat) (order more : List Nat) :
    owed calls sink (order ++ more) = owed calls sink order ++ owed calls sink more :=
  List.filterMap_append

/-- A call that has not appended owes nothing. -/
theorem owed_update (absent : n ∉ order) : owed (Function.update calls n call) sink order = owed calls sink order := by
  apply List.filterMap_congr
  intro m member
  have other : m ≠ n := fun same => absent (same ▸ member)
  rw [Function.update_of_ne other]

/-- What a call owes stands at its place in the order. -/
theorem owed_split (calls : Nat → Call) (sink : Nat) (once : (before ++ n :: later).Nodup) (call : Call) :
    owed (Function.update calls n call) sink (before ++ n :: later) =
      owed calls sink before ++ ((call.owes sink).toList ++ owed calls sink later) := by
  obtain ⟨-, apart, distinct⟩ := List.nodup_append.mp once
  obtain ⟨absentLater, -⟩ := List.nodup_cons.mp apart
  have absentBefore : n ∉ before := fun member => distinct n member n List.mem_cons_self rfl
  have here : owed (Function.update calls n call) sink (n :: later) =
      (call.owes sink).toList ++ owed (Function.update calls n call) sink later := by
    unfold owed
    rw [List.filterMap_cons, Function.update_self]
    cases call.owes sink <;> rfl
  rw [owed_append, owed_update absentBefore, here, owed_update absentLater]

/-- The calls before one in the order. -/
theorem takeWhile_split (once : (before ++ n :: later).Nodup) :
    (before ++ n :: later).takeWhile (fun m => m != n) = before := by
  obtain ⟨-, -, distinct⟩ := List.nodup_append.mp once
  rw [List.takeWhile_append_of_pos]
  · simp
  · intro m member
    simpa using distinct m member n List.mem_cons_self

/-- A step of a call that leaves what it owes leaves what is owed. -/
theorem owed_replace (same : call.owes sink = (calls n).owes sink) :
    owed (Function.update calls n call) sink order = owed calls sink order := by
  apply List.filterMap_congr
  intro m member
  by_cases here : m = n
  · rw [here, Function.update_self, same]
  · rw [Function.update_of_ne here]

theorem owed_eq_nil (settled : ∀ m ∈ order, (calls m).owes sink = none) : owed calls sink order = [] :=
  List.filterMap_eq_nil_iff.mpr settled

end Owed

/-! ## Each step keeps the invariant -/

section Steps

variable {setup : Setup} {state after : State} {n sink : Nat} {event : Dict} {call : Call}

theorem Request.append_written {request : Request} {journal : Bytes} {cache later : IdemCache} {appended : Appended}
    (done : request.append setup cache journal = .ok (appended, later)) :
    ∃ line, encodeEvent setup.host appended.event = .ok line ∧ appended.content = journal ++ (line ++ [10]) := by
  cases request with
  | event build =>
    cases wrote : appendEvent setup.host setup.name (some journal) build with
    | error e => simp [Request.append, wrote, Except.map] at done
    | ok made =>
      simp only [Request.append, wrote, Except.map, Except.ok.injEq, Prod.mk.injEq] at done
      obtain ⟨rfl, -⟩ := done
      obtain ⟨line, -, -, encoded, content⟩ := appendBuilt_eq_ok.mp wrote
      exact ⟨line, encoded, content⟩
  | atomic query build =>
    simp only [Request.append, appendEventAtomic, bind_eq_ok, pure, Except.pure, Except.ok.injEq,
      Prod.mk.injEq] at done
    obtain ⟨looked, -, written, wrote, rfl, -⟩ := done
    obtain ⟨line, -, -, encoded, content⟩ := appendBuilt_eq_ok.mp wrote
    exact ⟨line, encoded, content⟩

/-- An append that returns owes its event to every sink. -/
theorem Inv.append (inv : Inv setup state) (called : state.calls n = .ready) {appended : Appended}
    {cache : IdemCache} (done : (setup.requests n).append setup state.cache state.journal = .ok (appended, cache)) :
    Inv setup { state with
      journal := appended.content
      cache := cache
      calls := Function.update state.calls n (.shipping appended.event 0)
      order := state.order ++ [n] } where
  once := by
    show (state.order ++ [n]).Nodup
    rw [← List.concat_eq_append]
    exact (List.nodup_concat _ _).mpr ⟨inv.fresh n called, inv.once⟩
  fresh := by
    intro m (ready : Function.update state.calls n (.shipping appended.event 0) m = .ready)
      (member : m ∈ state.order ++ [n])
    by_cases here : m = n
    · subst m
      rw [Function.update_self] at ready
      cases ready
    · rw [Function.update_of_ne here] at ready
      rcases List.mem_append.mp member with old | new
      · exact inv.fresh m ready old
      · exact here (List.mem_singleton.mp new)
  known := by
    intro m (shipping : (Function.update state.calls n (.shipping appended.event 0) m).isShipping = true)
    show m ∈ state.order ++ [n]
    by_cases here : m = n
    · simp [here]
    · rw [Function.update_of_ne here] at shipping
      exact List.mem_append_left _ (inv.known m shipping)
  holds := by
    intro sink inside sound
    obtain ⟨line, encoded, content⟩ := Request.append_written done
    have owes : owed (Function.update state.calls n (.shipping appended.event 0)) sink (state.order ++ [n]) =
        owed state.calls sink state.order ++ [appended.event] := by
      rw [owed_append, owed_update (inv.fresh n called)]
      congr 1
      simp [owed, Call.owes]
    show appended.content = _
    rw [owes, ← List.append_assoc, mirror_append, ← inv.holds sink inside sound, mirror_singleton encoded]
    exact content

/-- A call that raises before it has appended owes nothing. -/
theorem Inv.raise (inv : Inv setup state) (called : state.calls n = .ready) :
    Inv setup { state with calls := Function.update state.calls n .raised } where
  once := inv.once
  fresh := by
    intro m (ready : Function.update state.calls n .raised m = .ready)
    by_cases here : m = n
    · subst m
      exact inv.fresh n called
    · rw [Function.update_of_ne here] at ready
      exact inv.fresh m ready
  known := by
    intro m (shipping : (Function.update state.calls n .raised m).isShipping = true)
    by_cases here : m = n
    · subst m
      rw [Function.update_self] at shipping
      cases shipping
    · rw [Function.update_of_ne here] at shipping
      exact inv.known m shipping
  holds := by
    intro sink inside sound
    show state.journal = mirror setup.host (state.received sink ++ owed (Function.update state.calls n .raised) sink
      state.order)
    rw [owed_update (inv.fresh n called)]
    exact inv.holds sink inside sound

/-- Once a call has appended, its steps leave the order as it is. -/
theorem Inv.placed (inv : Inv setup state) (called : state.calls n = .shipping event sink)
    (begun : call ≠ .ready) : (∀ m, Function.update state.calls n call m = .ready → m ∉ state.order) ∧
      ∀ m, (Function.update state.calls n call m).isShipping = true → m ∈ state.order := by
  constructor
  · intro m ready
    by_cases here : m = n
    · subst m
      rw [Function.update_self] at ready
      exact absurd ready begun
    · rw [Function.update_of_ne here] at ready
      exact inv.fresh m ready
  · intro m shipping
    by_cases here : m = n
    · subst m
      exact inv.known n (by rw [called]; rfl)
    · rw [Function.update_of_ne here] at shipping
      exact inv.known m shipping

theorem owes_next {event : Dict} {sink other : Nat} (apart : other ≠ sink) :
    (Call.shipping event (sink + 1)).owes other = (Call.shipping event sink).owes other := by
  have same : sink + 1 ≤ other ↔ sink ≤ other := by omega
  simp only [Call.owes, same]

/-- A sink that is sent the first event it is owed. -/
theorem Inv.deliver (inv : Inv setup state) (called : state.calls n = .shipping event sink)
    (settled : ∀ earlier ∈ state.order.takeWhile (fun m => m != n), (state.calls earlier).owes sink = none) :
    Inv setup (state.deliver n event sink) where
  once := inv.once
  fresh := (inv.placed called (by simp)).1
  known := (inv.placed called (by simp)).2
  holds := by
    intro other inside sound
    show state.journal = mirror setup.host (Function.update state.received sink (state.received sink ++ [event]) other ++
      owed (Function.update state.calls n (.shipping event (sink + 1))) other state.order)
    by_cases here : other = sink
    · subst other
      obtain ⟨before, later, split⟩ := List.append_of_mem (inv.known n (by rw [called]; rfl))
      have once := inv.once
      rw [split] at once settled
      rw [takeWhile_split once] at settled
      have was := owed_split state.calls sink once (.shipping event sink)
      rw [← called, Function.update_eq_self, owed_eq_nil settled, called] at was
      have is := owed_split state.calls sink once (.shipping event (sink + 1))
      rw [owed_eq_nil settled] at is
      have kept := inv.holds sink inside sound
      rw [split, was] at kept
      rw [split, is, Function.update_self, kept]
      simp [Call.owes]
    · rw [Function.update_of_ne here, owed_replace (by rw [called, owes_next here])]
      exact inv.holds other inside sound

/-- A sink that refuses an event has failed; the others are owed what they were. -/
theorem Inv.refuse (inv : Inv setup state) (called : state.calls n = .shipping event sink) (begun : call ≠ .ready)
    (others : ∀ other < setup.sinks, other ≠ sink → state.failed other = false →
      call.owes other = (state.calls n).owes other) : Inv setup (state.refuse n sink call) where
  once := inv.once
  fresh := (inv.placed called begun).1
  known := (inv.placed called begun).2
  holds := by
    intro other inside sound
    have apart : other ≠ sink := by
      rintro rfl
      simp [State.refuse] at sound
    have whole : state.failed other = false := by simpa [State.refuse, apart] using sound
    show state.journal = mirror setup.host (state.received other ++ owed (Function.update state.calls n call) other
      state.order)
    rw [owed_replace (others other inside apart whole)]
    exact inv.holds other inside whole

/-- A call that has sent its event to every sink returns. -/
theorem Inv.finish (inv : Inv setup state) (called : state.calls n = .shipping event setup.sinks) :
    Inv setup { state with calls := Function.update state.calls n (.returned event) } where
  once := inv.once
  fresh := (inv.placed called (by simp)).1
  known := (inv.placed called (by simp)).2
  holds := by
    intro other inside sound
    show state.journal = mirror setup.host (state.received other ++
      owed (Function.update state.calls n (.returned event)) other state.order)
    have nothing : ¬ setup.sinks ≤ other := by omega
    rw [owed_replace (by simp [called, Call.owes, nothing])]
    exact inv.holds other inside sound

/-- Every step in turn keeps the invariant. -/
theorem Inv.step {action : Action} (inv : Inv setup state) (turn : InTurn setup state action)
    (taken : step setup state action = some after) : Inv setup after := by
  cases action with
  | append n =>
    cases called : state.calls n with
    | ready =>
      cases done : (setup.requests n).append setup state.cache state.journal with
      | ok result =>
        simp only [Shipping.step, called, done, Option.some.injEq] at taken
        exact taken ▸ inv.append called done
      | error e =>
        simp only [Shipping.step, called, done, Option.some.injEq] at taken
        exact taken ▸ inv.raise called
    | shipping | returned | raised => simp [Shipping.step, called] at taken
  | breaks n written =>
    cases called : state.calls n with
    | ready =>
      have nothing : written = [] := turn
      simp only [Shipping.step, called, nothing, List.append_nil, Option.some.injEq] at taken
      exact taken ▸ inv.raise called
    | shipping | returned | raised => simp [Shipping.step, called] at taken
  | send n sent =>
    cases called : state.calls n with
    | shipping event sink =>
      obtain ⟨settled, stops⟩ := turn event sink called
      simp only [Shipping.step, called] at taken
      split_ifs at taken with inside
      cases taken
      cases sent with
      | returns => exact inv.deliver called settled
      | raises | shipError | interrupted =>
        apply inv.refuse called (by split_ifs <;> simp)
        intro other within apart sound
        rw [called]
        split_ifs with ends
        · have before : ¬ sink ≤ other := by
            intro reached
            have failed := stops ends other (by omega) within
            rw [failed] at sound
            cases sound
          simp [Call.owes, before]
        · exact owes_next apart
    | ready | returned | raised => simp [Shipping.step, called] at taken
  | finish n =>
    cases called : state.calls n with
    | shipping event sink =>
      simp only [Shipping.step, called] at taken
      split_ifs at taken with last
      subst last
      cases taken
      exact inv.finish called
    | ready | returned | raised => simp [Shipping.step, called] at taken

theorem Starts.inv (starts : Starts setup state) : Inv setup state where
  once := by
    rw [starts.order]
    exact List.nodup_nil
  fresh := by
    intro m ready
    simp [starts.order]
  known := by
    intro m shipping
    rw [starts.calls m] at shipping
    cases shipping
  holds := by
    intro sink inside sound
    rw [starts.order, owed, List.filterMap_nil, List.append_nil]
    exact starts.same sink inside

end Steps

/-- In a run whose calls neither overtake nor leave out, a sink that never failed has
received the first events of the primary, and all of them, once each and in its order, when
no call is shipping; a mirror is then the primary to the byte, and as valid. -/
theorem sinks_follow_primary {setup : Setup} {start final : State} {actions : List Action}
    (starts : Starts setup start) (run : Run (step setup) (InTurn setup) start actions final) :
    ∀ sink < setup.sinks, final.failed sink = false →
      final.journal = mirror setup.host (final.received sink ++ owed final.calls sink final.order) ∧
      ((∀ n, (final.calls n).isShipping = false) → final.journal = mirror setup.host (final.received sink) ∧
        ∀ keys, verifyJournal setup.host (.readable (mirror setup.host (final.received sink)) none) keys none =
          verifyJournal setup.host (.readable final.journal none) keys none) := by
  have inv : Inv setup final :=
    run.keeps (fun before action after turn kept taken => kept.step turn taken) starts.inv
  intro sink inside sound
  have held := inv.holds sink inside sound
  refine ⟨held, fun quiet => ?_⟩
  have settled : owed final.calls sink final.order = [] := by
    apply owed_eq_nil
    intro m member
    cases called : final.calls m with
    | shipping event next =>
      have busy := quiet m
      rw [called] at busy
      cases busy
    | ready | returned | raised => rfl
  rw [settled, List.append_nil] at held
  exact ⟨held, fun keys => by rw [← held]⟩

/-! ## Two appends and one sink -/

def fanoutStart : State := ⟨[], none, fun _ => .ready, [], fun _ => [], fun _ => false⟩

/-- Two calls have returned. -/
def fanoutEnd (journal : Bytes) (first second : Dict) (received : List Dict) : State :=
  ⟨journal, none, Function.update (Function.update (fun _ => .ready) 0 (.returned first)) 1 (.returned second), [0, 1],
    Function.update (fun _ => []) 0 received, fun _ => false⟩

section Pair

variable {setup : Setup} {before journal : Bytes} {first second : Dict} {previous head : Option Str}

theorem starts_fanout : Starts setup fanoutStart where
  calls _ := rfl
  order := rfl
  same _ _ := rfl

theorem quiet_fanoutEnd (received : List Dict) (n : Nat) :
    ((fanoutEnd journal first second received).calls n).isShipping = false := by
  by_cases late : n = 1
  · simp [fanoutEnd, late, Call.isShipping]
  · by_cases early : n = 0
    · simp [fanoutEnd, early, Call.isShipping]
    · simp [fanoutEnd, early, late, Call.isShipping]

/-- The second call sends its event while the first still has to. -/
theorem play_overtaking (one : setup.sinks = 1)
    (earlier : (setup.requests 0).append setup none [] = .ok (⟨before, first, previous⟩, none))
    (later : (setup.requests 1).append setup none before = .ok (⟨journal, second, head⟩, none)) :
    play (step setup) fanoutStart
      [.append 0, .append 1, .send 1 .returns, .finish 1, .send 0 .returns, .finish 0] =
        some (fanoutEnd journal first second [second, first]) := by
  have swap : Function.update (Function.update (Function.update (fun _ => Call.ready) 0 (.shipping first 0)) 1
        (.returned second)) 0 (.returned first) =
      Function.update (Function.update (fun _ => .ready) 0 (.returned first)) 1 (.returned second) := by
    rw [Function.update_comm (by decide), Function.update_idem]
  simp only [play, step, fanoutStart, earlier, later, Option.bind_some]
  simp [State.shipped, State.deliver, fanoutEnd, one, swap]

/-- A sink fails under `raise`, and the one after it is left out. -/
theorem play_left_out (two : setup.sinks = 2) (raises : setup.policy = .raise)
    (earlier : (setup.requests 0).append setup none [] = .ok (⟨before, first, previous⟩, none)) :
    ∃ final, play (step setup) fanoutStart [.append 0, .send 0 .raises] = some final ∧ final.journal = before ∧
      (∀ n, (final.calls n).isShipping = false) ∧ final.failed 1 = false ∧ final.received 1 = [] := by
  refine ⟨⟨before, none, Function.update (fun _ => .ready) 0 .raised, [0], fun _ => [],
    Function.update (fun _ => false) 0 true⟩, ?_, rfl, ?_, rfl, rfl⟩
  · simp [play, step, fanoutStart, earlier, two, raises, State.shipped, State.refuse, Sent.ends]
  · intro n
    by_cases here : n = 0
    · simp [here, Call.isShipping]
    · simp [here, Call.isShipping]

/-- The first call sends its event before the second. -/
theorem run_in_turn (one : setup.sinks = 1)
    (earlier : (setup.requests 0).append setup none [] = .ok (⟨before, first, previous⟩, none))
    (later : (setup.requests 1).append setup none before = .ok (⟨journal, second, head⟩, none)) :
    ∃ actions, Run (step setup) (InTurn setup) fanoutStart actions (fanoutEnd journal first second [first, second]) := by
  let alone (call : Call) (received : List Dict) : State :=
    ⟨before, none, Function.update (fun _ => .ready) 0 call, [0], Function.update (fun _ => []) 0 received,
      fun _ => false⟩
  let both (call : Call) (received : List Dict) : State :=
    ⟨journal, none, Function.update (Function.update (fun _ => .ready) 0 (.returned first)) 1 call, [0, 1],
      Function.update (fun _ => []) 0 received, fun _ => false⟩
  have appends : step setup fanoutStart (.append 0) = some (alone (.shipping first 0) []) := by
    simp [step, fanoutStart, earlier, alone]
  have sends : step setup (alone (.shipping first 0) []) (.send 0 .returns) =
      some (alone (.shipping first 1) [first]) := by
    simp [step, alone, one, State.shipped, State.deliver]
  have finishes : step setup (alone (.shipping first 1) [first]) (.finish 0) =
      some (alone (.returned first) [first]) := by
    simp [step, alone, one]
  have appendsToo : step setup (alone (.returned first) [first]) (.append 1) =
      some (both (.shipping second 0) [first]) := by
    simp [step, alone, both, later]
  have sendsToo : step setup (both (.shipping second 0) [first]) (.send 1 .returns) =
      some (both (.shipping second 1) [first, second]) := by
    simp [step, both, one, State.shipped, State.deliver]
  have finishesToo : step setup (both (.shipping second 1) [first, second]) (.finish 1) =
      some (fanoutEnd journal first second [first, second]) := by
    simp [step, both, one, fanoutEnd]
  have free (state : State) (n : Nat) : InTurn setup state (.append n) ∧ InTurn setup state (.finish n) :=
    ⟨trivial, trivial⟩
  refine ⟨_, .cons (free _ 0).1 appends (.cons ?_ sends (.cons (free _ 0).2 finishes (.cons (free _ 1).1 appendsToo
    (.cons ?_ sendsToo (.cons (free _ 1).2 finishesToo (.nil _))))))⟩
  · intro event sink called
    exact ⟨by simp [alone], by simp [Sent.ends]⟩
  · intro event sink called
    exact ⟨by simp [both, Call.owes], by simp [Sent.ends]⟩

end Pair

section Sample
open Tesera.Verification.Presence

def fanoutSetup : Setup where
  host := rotationHost
  useIndex := false
  name := Journal.Store.shown []
  policy := .raise
  sinks := 1
  requests := fun n => .event (rotationBuild n)

theorem append_of_built {setup : Setup} {cache : IdemCache} {journal line : Bytes} {event : Dict}
    {previous : Option Str} {build : Option Str → Except PyError Dict} (index : setup.useIndex = false)
    (tail : readLastEventHash setup.host setup.name journal = .ok previous) (made : build previous = .ok event)
    (encoded : encodeEvent setup.host event = .ok line) :
    (Request.event build).append setup cache journal = .ok (⟨journal ++ (line ++ [10]), event, previous⟩, cache) := by
  have wrote : appendEvent setup.host setup.name (some journal) build =
      .ok ⟨journal ++ (line ++ [10]), event, previous⟩ :=
    appendBuilt_eq_ok.mpr ⟨line, tail, made, encoded, rfl⟩
  simp only [Request.append, wrote, Except.map, noteIdemAppend, index, Bool.false_eq_true, if_false]

theorem append_fanout :
    (fanoutSetup.requests 0).append fanoutSetup none [] = .ok (⟨rotationContent, (rotationLine 0).1, none⟩, none) ∧
    (fanoutSetup.requests 1).append fanoutSetup none rotationContent =
      .ok (⟨rotationContent ++ ((rotationLine 1).2 ++ [10]), (rotationLine 1).1, rotationHead⟩, none) := by
  obtain ⟨made, encoded⟩ := buildLine_eq_ok rotation_decision
  obtain ⟨madeLater, encodedLater⟩ := buildLine_eq_ok rotation_outcome
  have first := @append_of_built fanoutSetup none [] _ _ none (rotationBuild 0) rfl tail_nil made encoded
  rw [List.nil_append] at first
  exact ⟨first, append_of_built rfl (tail_rotationContent _) madeLater encodedLater⟩

/-- The calls append and send one after the other. -/
theorem sinks_follow_primary_sample : ∃ actions final,
    Run (step fanoutSetup) (InTurn fanoutSetup) fanoutStart actions final ∧
      final.journal = mirror fanoutSetup.host (final.received 0) := by
  obtain ⟨earlier, later⟩ := append_fanout
  obtain ⟨actions, run⟩ := run_in_turn rfl earlier later
  obtain ⟨-, quiet⟩ := sinks_follow_primary starts_fanout run 0 (by decide) rfl
  exact ⟨actions, _, run, (quiet (quiet_fanoutEnd _)).1⟩

theorem records_two {a b : Bytes} (solidA : Solid a) (solidB : Solid b) :
    records (a ++ [10] ++ (b ++ [10])) = [a, b] := by
  have one := @records_written_of_blank [] a solidA blank_nil
  rw [List.nil_append, records_of_blank blank_nil, List.nil_append] at one
  have blank : Blank (fragment (a ++ [10])) := by
    rw [Verification.Custody.fragment_newline]
    exact blank_nil
  rw [records_written_of_blank solidB blank, one]
  rfl

/-- A mirror that holds two different lines the other way round is not the primary. -/
theorem mirror_swapped {host : Host} {first second : Dict} {a b : Bytes} (encoded : encodeEvent host first = .ok a)
    (encodedLater : encodeEvent host second = .ok b) (apart : a ≠ b) :
    a ++ [10] ++ (b ++ [10]) ≠ mirror host [second, first] := by
  have lines : mirror host [second, first] = b ++ [10] ++ (a ++ [10]) := by
    simp [mirror, encoded, encodedLater, Except.toOption]
  intro same
  have read := congrArg records same
  rw [lines, records_two (solid_encodeEvent encoded) (solid_encodeEvent encodedLater),
    records_two (solid_encodeEvent encodedLater) (solid_encodeEvent encoded)] at read
  exact apart (List.cons.inj read).1

theorem rotation_lines_apart : (rotationLine 0).2 ≠ (rotationLine 1).2 := by
  unfold rotationLine
  decide +kernel

/-- A second call sends its event first, and the mirror is not the primary. -/
theorem overtaking_reorders : Starts fanoutSetup fanoutStart ∧ ∃ actions final,
    Run (step fanoutSetup) (fun _ _ => True) fanoutStart actions final ∧
      (∀ n, (final.calls n).isShipping = false) ∧ (∀ sink, final.failed sink = false) ∧
      final.journal ≠ mirror fanoutSetup.host (final.received 0) := by
  obtain ⟨earlier, later⟩ := append_fanout
  obtain ⟨-, encoded⟩ := buildLine_eq_ok rotation_decision
  obtain ⟨-, encodedLater⟩ := buildLine_eq_ok rotation_outcome
  have swapped := mirror_swapped encoded encodedLater rotation_lines_apart
  have run := Run.of_play (play_overtaking rfl earlier later) (fun _ _ _ => (trivial : True))
  exact ⟨starts_fanout, _, _, run, quiet_fanoutEnd _, fun _ => rfl, swapped⟩

/-- With a second sink and a first one that fails, the second has not received what the
primary holds, though it never failed. -/
theorem failure_leaves_out : ∃ actions final,
    Run (step { fanoutSetup with sinks := 2 }) (fun _ _ => True) fanoutStart actions final ∧
      (∀ n, (final.calls n).isShipping = false) ∧ final.failed 1 = false ∧
      final.journal ≠ mirror fanoutSetup.host (final.received 1) := by
  obtain ⟨final, played, journal, quiet, sound, nothing⟩ :=
    @play_left_out { fanoutSetup with sinks := 2 } _ _ _ rfl rfl append_fanout.1
  refine ⟨_, final, Run.of_play played (fun _ _ _ => (trivial : True)), quiet, sound, ?_⟩
  rw [journal, nothing, rotationContent]
  simp [mirror]

end Sample

end Tesera.Shipping
