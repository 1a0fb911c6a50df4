import Tesera.Journal.Scan

/-!
The decisions a scan or the tables keep: of each id the first that passes a test, in file
order. A search among them meets the positions of these decisions in order.
-/

namespace Tesera.Journal.Firsts
open Tesera.Text Tesera.Text.Unicode Tesera.Python.Value
open Tesera.Journal.Idempotency Tesera.Journal.Scan

variable {keep : Dict → Bool} {events : List Dict} {event : Dict} {i j : Nat} {id other : Str}

/-- An event that passes the test, and the first that does under its id. -/
structure First (keep : Dict → Bool) (events : List Dict) (i : Nat) (id : Str) (event : Dict) : Prop where
  here : events[i]? = some event
  kept : keep event = true
  named : idOf event = some id
  fresh : ∀ j < i, ∀ earlier, events[j]? = some earlier → keep earlier = true → idOf earlier ≠ some id

/-- One more event for a table of first events. -/
def noteFirst (keep : Dict → Bool) (m : Ordered Dict) (event : Dict) : Ordered Dict :=
  if keep event then (idOf event).elim m (fun id => m.setDefault id event) else m

def firsts (keep : Dict → Bool) (events : List Dict) : Ordered Dict := events.foldl (noteFirst keep) []

theorem firsts_append (keep : Dict → Bool) (events : List Dict) (event : Dict) :
    firsts keep (events ++ [event]) = noteFirst keep (firsts keep events) event := by
  rw [firsts, List.foldl_append, List.foldl_cons, List.foldl_nil, firsts]

theorem noteFirst_new {m : Ordered Dict} (kept : keep event = true) (named : idOf event = some id)
    (absent : m.has id = false) : noteFirst keep m event = m ++ [(id, event)] := by
  rw [noteFirst, if_pos kept, named, Option.elim_some, Ordered.setDefault, absent, if_neg Bool.false_ne_true]

theorem noteFirst_known {m : Ordered Dict} (known : ∀ id ∈ idOf event, keep event = true → m.has id = true) :
    noteFirst keep m event = m := by
  unfold noteFirst
  split_ifs with kept
  · cases named : idOf event with
    | none => rfl
    | some id => rw [Option.elim_some, Ordered.setDefault, if_pos (known id named kept)]
  · rfl

/-! ## Positions -/

theorem First.lt (first : First keep events i id event) : i < events.length := by
  by_contra outside
  have here := first.here
  rw [List.getElem?_eq_none (Nat.le_of_not_lt outside)] at here
  cases here

theorem First.unique {one two : Dict} (first : First keep events i id one) (second : First keep events j id two) :
    i = j := by
  rcases Nat.lt_trichotomy i j with less | same | more
  · exact absurd first.named (second.fresh i less one first.here first.kept)
  · exact same
  · exact absurd second.named (first.fresh j more two second.here second.kept)

theorem First.event_eq {one two : Dict} (first : First keep events i id one) (second : First keep events i other two) :
    one = two := Option.some.inj (first.here.symm.trans second.here)

/-- What stands before the last event stays first. -/
theorem First.append (first : First keep events i id event) (last : Dict) :
    First keep (events ++ [last]) i id event where
  here := by rw [List.getElem?_append_left first.lt, first.here]
  kept := first.kept
  named := first.named
  fresh := by
    intro j less earlier found
    rw [List.getElem?_append_left (less.trans first.lt)] at found
    exact first.fresh j less earlier found

/-- A first event of a longer history stands before the last event or is the last one. -/
theorem First.of_append {last : Dict} (first : First keep (events ++ [last]) i id event) :
    First keep events i id event ∨ i = events.length ∧ event = last := by
  have inside := first.lt
  rw [List.length_append, List.length_singleton] at inside
  by_cases before : i < events.length
  · left
    refine ⟨?_, first.kept, first.named, ?_⟩
    · rw [← first.here, List.getElem?_append_left before]
    · intro j less earlier found
      apply first.fresh j less earlier
      rw [List.getElem?_append_left (less.trans before), found]
  · right
    have index : i = events.length := by omega
    have here := first.here
    rw [index, List.getElem?_concat_length, Option.some.injEq] at here
    exact ⟨index, here.symm⟩

/-- The first event of an id, where there is one among the events read. -/
theorem exists_first (found : events[i]? = some event) (kept : keep event = true) (named : idOf event = some id) :
    ∃ j ≤ i, ∃ one, First keep events j id one := by
  classical
  have some : ∃ j, ∃ one, events[j]? = some one ∧ keep one = true ∧ idOf one = some id :=
    ⟨i, event, found, kept, named⟩
  obtain ⟨one, here, keptOne, namedOne⟩ := Nat.find_spec some
  refine ⟨Nat.find some, Nat.find_min' some ⟨event, found, kept, named⟩, one, here, keptOne, namedOne, ?_⟩
  intro j less earlier foundEarlier keptEarlier namedEarlier
  exact Nat.find_min some less ⟨earlier, foundEarlier, keptEarlier, namedEarlier⟩

/-! ## The table -/

theorem has_noteFirst {m : Ordered Dict} : (noteFirst keep m event).has id = true ↔
    m.has id = true ∨ keep event = true ∧ idOf event = some id := by
  unfold noteFirst
  by_cases kept : keep event = true
  · rw [if_pos kept]
    cases named : idOf event with
    | none => simp
    | some name =>
      rw [Option.elim_some, Ordered.has_setDefault]
      simp [kept]
  · rw [if_neg kept]
    simp [kept]

/-- The ids in the table are those of the events that pass. -/
theorem has_firsts : (firsts keep events).has id = true ↔
    ∃ event ∈ events, keep event = true ∧ idOf event = some id := by
  induction events using List.reverseRecOn with
  | nil => exact iff_of_false Bool.false_ne_true (by simp)
  | append_singleton events last ih =>
    rw [firsts_append, has_noteFirst, ih]
    constructor
    · rintro (⟨event, member, passes⟩ | passes)
      · exact ⟨event, List.mem_append_left _ member, passes⟩
      · exact ⟨last, List.mem_append_right _ (List.mem_singleton_self _), passes⟩
    · rintro ⟨event, member, passes⟩
      rcases List.mem_append.mp member with before | isLast
      · exact .inl ⟨event, before, passes⟩
      · rw [List.mem_singleton] at isLast
        exact .inr (isLast ▸ passes)

theorem First.has (first : First keep events i id event) : (firsts keep events).has id = true :=
  has_firsts.mpr ⟨event, List.mem_of_getElem? first.here, first.kept, first.named⟩

theorem distinct_firsts (keep : Dict → Bool) (events : List Dict) : (firsts keep events).Distinct := by
  induction events using List.reverseRecOn with
  | nil => exact List.nodup_nil
  | append_singleton events last ih =>
    rw [firsts_append, noteFirst]
    split_ifs
    · cases idOf last with
      | none => exact ih
      | some name => exact Ordered.distinct_setDefault ih
    · exact ih

/-- The last event is first of its id exactly when the table did not have it. -/
theorem first_last {last : Dict} (kept : keep last = true) (named : idOf last = some id)
    (absent : (firsts keep events).has id = false) : First keep (events ++ [last]) events.length id last where
  here := List.getElem?_concat_length
  kept := kept
  named := named
  fresh := by
    intro j less earlier found keptEarlier namedEarlier
    rw [List.getElem?_append_left less] at found
    have present := has_firsts.mpr ⟨earlier, List.mem_of_getElem? found, keptEarlier, namedEarlier⟩
    rw [present] at absent
    cases absent

theorem absent_of_first_last {last one : Dict} (first : First keep (events ++ [last]) events.length id one) :
    (firsts keep events).has id = false := by
  by_contra present
  obtain ⟨earlier, member, kept, named⟩ := has_firsts.mp (Bool.eq_true_of_not_eq_false present)
  obtain ⟨j, less, found⟩ := List.mem_iff_getElem.mp member
  apply first.fresh j less earlier
  · rw [List.getElem?_append_left less, List.getElem?_eq_getElem less, found]
  · exact kept
  · exact named

theorem mem_firsts : (id, event) ∈ firsts keep events ↔ ∃ i, First keep events i id event := by
  induction events using List.reverseRecOn with
  | nil =>
    refine iff_of_false (by simp [firsts]) ?_
    rintro ⟨i, first⟩
    cases first.here
  | append_singleton events last ih =>
    rw [firsts_append]
    constructor
    · intro member
      by_cases known : (id, event) ∈ firsts keep events
      · obtain ⟨i, first⟩ := ih.mp known
        exact ⟨i, first.append last⟩
      · unfold noteFirst at member
        split_ifs at member with kept
        · cases named : idOf last with
          | none =>
            rw [named] at member
            exact absurd member known
          | some name =>
            rw [named, Option.elim_some, Ordered.setDefault] at member
            split_ifs at member with present
            · exact absurd member known
            · have new : (id, event) = (name, last) := by simpa [known] using member
              cases new
              exact ⟨events.length, first_last kept named (Bool.eq_false_iff.mpr present)⟩
        · exact absurd member known
    · rintro ⟨i, first⟩
      rcases first.of_append with before | ⟨rfl, rfl⟩
      · have known := ih.mpr ⟨i, before⟩
        unfold noteFirst
        split_ifs
        · cases idOf last with
          | none => exact known
          | some name =>
            rw [Option.elim_some, Ordered.setDefault]
            split_ifs
            · exact known
            · exact List.mem_append_left _ known
        · exact known
      · rw [noteFirst_new first.kept first.named (absent_of_first_last first)]
        exact List.mem_append_right _ (List.mem_singleton_self _)

/-- The table is in file order. -/
theorem ordered_firsts (keep : Dict → Bool) (events : List Dict) : (firsts keep events).Pairwise
    (fun p q => ∀ i j, First keep events i p.1 p.2 → First keep events j q.1 q.2 → i < j) := by
  induction events using List.reverseRecOn with
  | nil => exact .nil
  | append_singleton events last ih =>
    have old : (firsts keep events).Pairwise (fun p q => ∀ i j, First keep (events ++ [last]) i p.1 p.2 →
        First keep (events ++ [last]) j q.1 q.2 → i < j) := by
      apply ih.imp_of_mem
      intro p q memberP memberQ before i j first second
      obtain ⟨k, firstP⟩ := mem_firsts.mp memberP
      obtain ⟨l, firstQ⟩ := mem_firsts.mp memberQ
      rw [first.unique (firstP.append last), second.unique (firstQ.append last)]
      exact before k l firstP firstQ
    rw [firsts_append]
    by_cases fresh : keep last = true ∧ ∃ name, idOf last = some name ∧ (firsts keep events).has name = false
    · obtain ⟨kept, name, named, absent⟩ := fresh
      rw [noteFirst_new kept named absent]
      refine List.pairwise_append.mpr ⟨old, List.pairwise_singleton _ _, ?_⟩
      intro p member q isNew i j first second
      rw [List.mem_singleton] at isNew
      subst isNew
      obtain ⟨k, firstP⟩ := mem_firsts.mp member
      rw [first.unique (firstP.append last), second.unique (first_last kept named absent)]
      exact firstP.lt
    · rw [noteFirst_known]
      · exact old
      · intro name named kept
        by_contra absent
        exact fresh ⟨kept, name, named, Bool.eq_false_iff.mpr absent⟩

/-- A search in the table stops at the first position whose event it accepts. -/
theorem find?_firsts {accept : Str × Dict → Bool} : (firsts keep events).find? accept = some (id, event) ↔
    ∃ i, First keep events i id event ∧ accept (id, event) = true ∧
      ∀ j < i, ∀ other one, First keep events j other one → accept (other, one) = false := by
  have sound : ∀ p, (firsts keep events).find? accept = some p → ∃ i, First keep events i p.1 p.2 ∧
      accept p = true ∧ ∀ j < i, ∀ other one, First keep events j other one → accept (other, one) = false := by
    intro p found
    obtain ⟨accepted, before, after, table, refused⟩ := List.find?_eq_some_iff_append.mp found
    have member : p ∈ firsts keep events := table ▸ List.mem_append_right before List.mem_cons_self
    obtain ⟨i, first⟩ := mem_firsts.mp member
    refine ⟨i, first, accepted, ?_⟩
    intro j less other one firstOther
    have ordered := ordered_firsts keep events
    rw [table, List.pairwise_append, List.pairwise_cons] at ordered
    have inTable := mem_firsts.mpr ⟨j, firstOther⟩
    rw [table, List.mem_append, List.mem_cons] at inTable
    rcases inTable with earlier | same | later
    · simpa using refused _ earlier
    · subst same
      exact absurd (first.unique firstOther) (by omega)
    · have greater := ordered.2.1.1 _ later i j first firstOther
      omega
  constructor
  · exact sound (id, event)
  · rintro ⟨i, first, accepted, earliest⟩
    have some : ((firsts keep events).find? accept).isSome = true := by
      rw [List.find?_isSome]
      exact ⟨(id, event), mem_firsts.mpr ⟨i, first⟩, accepted⟩
    obtain ⟨p, found⟩ := Option.isSome_iff_exists.mp some
    obtain ⟨k, firstP, acceptedP, earliestP⟩ := sound p found
    rcases Nat.lt_trichotomy k i with less | same | more
    · have refused := earliest k less p.1 p.2 firstP
      rw [acceptedP] at refused
      cases refused
    · subst same
      have sameEvent := firstP.event_eq first
      have sameId : p.1 = id := by
        apply Option.some.inj
        rw [← firstP.named, sameEvent, first.named]
      rw [found, ← sameId, ← sameEvent]
    · have refused := earliestP i more id event first
      rw [accepted] at refused
      cases refused

end Tesera.Journal.Firsts
