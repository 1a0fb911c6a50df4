import Tesera.Text.Unicode

/-!
Unicode normalization over tables of decompositions, combining classes and primary
composites. A starter followed by marks is a cluster. Clusters that begin with starters which
nothing composes with are normalized one by one, and each keeps the starter it decomposes to.
-/

namespace Tesera.Text.Normalization
open Tesera.Text.Unicode

/-- The tables: full decompositions, by which a character without one is itself, the combining
classes, and the composites that are not excluded. -/
structure Tables where
  canonical : Nat → Str
  compatible : Nat → Str
  combining : Nat → Nat
  primary : Nat → Nat → Option Nat

variable (tables : Tables)

def isStarter (c : Nat) : Bool := tables.combining c == 0

def starters (text : Str) : Str := text.filter (isStarter tables)

/-- Put a mark before the first of those after it that is not of a smaller class. -/
def insertMark (c : Nat) : Str → Str
  | [] => [c]
  | d :: rest =>
      if tables.combining d ≠ 0 ∧ tables.combining d < tables.combining c then d :: insertMark c rest else c :: d :: rest

/-- The canonical order: the marks after a starter by their classes. -/
def order : Str → Str
  | [] => []
  | c :: rest => if isStarter tables c then c :: order rest else insertMark tables c (order rest)

/-- A mark is blocked from the starter by one of its class or a greater one between them, and a
starter by any. -/
def isBlocked (pending : Str) (c : Nat) : Bool :=
  match pending.getLast? with
  | none => false
  | some d => tables.combining c ≤ tables.combining d

/-- Compose with a starter, from which some marks have been left so far. -/
def composeFrom (starter : Nat) (pending : Str) : Str → Str
  | [] => starter :: pending
  | c :: rest =>
      match if isBlocked tables pending c then none else tables.primary starter c with
      | some composite => composeFrom composite pending rest
      | none =>
          if isStarter tables c then starter :: (pending ++ composeFrom c [] rest)
          else composeFrom starter (pending ++ [c]) rest

def compose : Str → Str
  | [] => []
  | c :: rest => if isStarter tables c then composeFrom tables c [] rest else c :: compose rest

def nfd (text : Str) : Str := order tables (text.flatMap tables.canonical)

def nfkc (text : Str) : Str := compose tables (order tables (text.flatMap tables.compatible))

/-! ## Order -/

variable {tables}

theorem isStarter_iff {c : Nat} : isStarter tables c = true ↔ tables.combining c = 0 := by
  simp [isStarter]

theorem starters_insertMark {c : Nat} (mark : isStarter tables c = false) (text : Str) :
    starters tables (insertMark tables c text) = starters tables text := by
  induction text with
  | nil => simp [insertMark, starters, mark]
  | cons d rest ih =>
    rw [insertMark]
    split_ifs
    · rw [starters, List.filter_cons, starters, List.filter_cons]
      simp only [starters] at ih
      rw [ih]
    · rw [starters, List.filter_cons_of_neg (by simp [mark])]
      rfl

theorem starters_order (text : Str) : starters tables (order tables text) = starters tables text := by
  induction text with
  | nil => rfl
  | cons c rest ih =>
    rw [order]
    by_cases starter : isStarter tables c = true
    · rw [if_pos starter, starters, List.filter_cons_of_pos starter, starters, List.filter_cons_of_pos starter]
      simp only [starters] at ih
      rw [ih]
    · rw [if_neg starter, starters_insertMark (by simpa using starter), ih, starters, starters,
        List.filter_cons_of_neg starter]

theorem order_starters {text : Str} (only : ∀ c ∈ text, isStarter tables c = true) : order tables text = text := by
  induction text with
  | nil => rfl
  | cons c rest ih =>
    rw [order, if_pos (only c List.mem_cons_self), ih (fun d found => only d (List.mem_cons_of_mem c found))]

theorem insertMark_append {c d : Nat} (starter : isStarter tables d = true) (text rest : Str) :
    insertMark tables c (text ++ d :: rest) = insertMark tables c text ++ d :: rest := by
  induction text with
  | nil =>
    have zero := isStarter_iff.mp starter
    simp [insertMark, zero]
  | cons e text ih =>
    rw [List.cons_append, insertMark, insertMark]
    split_ifs
    · rw [ih, List.cons_append]
    · rfl

/-- What follows a starter is ordered on its own. -/
theorem order_append {d : Nat} (starter : isStarter tables d = true) (text rest : Str) :
    order tables (text ++ d :: rest) = order tables text ++ order tables (d :: rest) := by
  have after : order tables (d :: rest) = d :: order tables rest := by rw [order, if_pos starter]
  induction text with
  | nil => rfl
  | cons c text ih =>
    rw [List.cons_append, order, order]
    split_ifs
    · rw [ih, List.cons_append]
    · rw [ih, after, insertMark_append starter]

theorem insertMark_perm (c : Nat) (text : Str) : (insertMark tables c text).Perm (c :: text) := by
  induction text with
  | nil => exact .refl _
  | cons d rest ih =>
    rw [insertMark]
    split_ifs
    · exact (ih.cons d).trans (.swap c d rest)
    · exact .refl _

theorem order_perm (text : Str) : (order tables text).Perm text := by
  induction text with
  | nil => exact .refl _
  | cons c rest ih =>
    rw [order]
    split_ifs
    · exact ih.cons c
    · exact (insertMark_perm c _).trans (ih.cons c)

/-! ## Clusters -/

/-- Marks only. -/
def Marks (text : Str) : Prop := ∀ c ∈ text, isStarter tables c = false

/-- What the tables say of composites of a starter and a mark. -/
def Composites : Prop := ∀ s c p, isStarter tables s = true → isStarter tables c = false → tables.primary s c = some p →
  isStarter tables p = true ∧ starters tables (tables.canonical p) = starters tables (tables.canonical s)

/-- Nothing composes with the character before it. -/
def Apart (tables : Tables) (c : Nat) : Prop := isStarter tables c = true ∧ ∀ s, tables.primary s c = none

theorem marks_order {marks : Str} (only : @Marks tables marks) : @Marks tables (order tables marks) :=
  fun c found => only c ((order_perm marks).mem_iff.mp found)

/-- A cluster becomes a starter with the same canonical starters, and marks. -/
theorem composeFrom_cluster (composites : @Composites tables) {starter : Nat} {pending marks : Str}
    (isStarts : isStarter tables starter = true) (before : @Marks tables pending) (only : @Marks tables marks) :
    ∃ head left, composeFrom tables starter pending marks = head :: left ∧ @Marks tables left ∧
      isStarter tables head = true ∧ starters tables (tables.canonical head) = starters tables (tables.canonical starter) := by
  induction marks generalizing starter pending with
  | nil => exact ⟨starter, pending, rfl, before, isStarts, rfl⟩
  | cons c rest ih =>
    have mark := only c List.mem_cons_self
    have later : @Marks tables rest := fun d found => only d (List.mem_cons_of_mem c found)
    rw [composeFrom]
    split
    next composite found =>
      have primary : tables.primary starter c = some composite := by
        split_ifs at found
        exact found
      obtain ⟨starts, same⟩ := composites starter c composite isStarts mark primary
      obtain ⟨head, left, composed, marks, first, canonical⟩ := ih starts before later
      exact ⟨head, left, composed, marks, first, canonical.trans same⟩
    next =>
      rw [if_neg (by simp [mark])]
      apply ih isStarts _ later
      intro d found
      exact (List.mem_append.mp found).elim (before d) (fun last => List.mem_singleton.mp last ▸ mark)

/-- Composition does not reach over a starter that nothing composes with. -/
theorem composeFrom_append {starter next : Nat} {pending marks rest : Str} (apart : Apart tables next) (only : @Marks tables marks) :
    composeFrom tables starter pending (marks ++ next :: rest) =
      composeFrom tables starter pending marks ++ composeFrom tables next [] rest := by
  induction marks generalizing starter pending with
  | nil =>
    rw [List.nil_append, composeFrom, composeFrom, apart.2 starter, ite_self]
    simp [apart.1]
  | cons c marks ih =>
    have mark := only c List.mem_cons_self
    have later : @Marks tables marks := fun d found => only d (List.mem_cons_of_mem c found)
    rw [List.cons_append, composeFrom, composeFrom]
    split
    next => exact ih later
    next =>
      rw [if_neg (by simp [mark]), if_neg (by simp [mark])]
      exact ih later

/-- The decomposition of a cluster: a starter that nothing composes with, then marks. -/
structure Cluster (tables : Tables) where
  starter : Nat
  marks : Str
  apart : Apart tables starter
  only : @Marks tables marks

def Cluster.text (cluster : Cluster tables) : Str := cluster.starter :: cluster.marks

/-- A cluster in composed form. -/
def Cluster.composed (cluster : Cluster tables) : Str :=
  composeFrom tables cluster.starter [] (order tables cluster.marks)

theorem order_clusters (clusters : List (Cluster tables)) : order tables (clusters.flatMap Cluster.text) =
    clusters.flatMap (fun cluster => cluster.starter :: order tables cluster.marks) := by
  induction clusters with
  | nil => rfl
  | cons first clusters ih =>
    have alone : order tables first.text = first.starter :: order tables first.marks := by
      rw [Cluster.text, order, if_pos first.apart.1]
    cases clusters with
    | nil => simpa using alone
    | cons second clusters =>
      have tail : (second :: clusters).flatMap Cluster.text = second.starter :: (second.marks ++ clusters.flatMap Cluster.text) := rfl
      rw [List.flatMap_cons, tail, order_append second.apart.1, ← tail, ih, alone]
      rfl

/-- Clusters are composed one by one. -/
theorem compose_clusters (clusters : List (Cluster tables)) :
    compose tables (order tables (clusters.flatMap Cluster.text)) = clusters.flatMap Cluster.composed := by
  rw [order_clusters]
  have from_first : ∀ first : Cluster tables, ∀ clusters : List (Cluster tables),
      composeFrom tables first.starter []
        (order tables first.marks ++ clusters.flatMap (fun cluster => cluster.starter :: order tables cluster.marks)) =
        first.composed ++ clusters.flatMap Cluster.composed := by
    intro first clusters
    induction clusters generalizing first with
    | nil => simp [Cluster.composed]
    | cons second clusters ih =>
      rw [List.flatMap_cons, List.cons_append, composeFrom_append second.apart (marks_order first.only), ih second,
        List.flatMap_cons]
      rfl
  cases clusters with
  | nil => rfl
  | cons first clusters =>
    rw [List.flatMap_cons, List.cons_append, compose, if_pos first.apart.1, from_first, List.flatMap_cons]

/-- A text that is decomposed to one cluster. -/
def IsCluster (tables : Tables) (text : Str) : Prop :=
  ∃ cluster : Cluster tables, text.flatMap tables.compatible = cluster.text

/-- NFKC reads a text of clusters one by one. -/
theorem nfkc_flatten {texts : List Str} (clusters : ∀ text ∈ texts, IsCluster tables text) :
    nfkc tables texts.flatten = texts.flatMap (nfkc tables) := by
  have decomposed : ∃ found : List (Cluster tables), texts.flatten.flatMap tables.compatible = found.flatMap Cluster.text ∧
      texts.flatMap (nfkc tables) = found.flatMap Cluster.composed := by
    induction texts with
    | nil => exact ⟨[], rfl, rfl⟩
    | cons text texts ih =>
      obtain ⟨first, same⟩ := clusters text List.mem_cons_self
      obtain ⟨found, rest, composed⟩ := ih (fun other member => clusters other (List.mem_cons_of_mem text member))
      have alone : nfkc tables text = first.composed := by
        rw [nfkc, same]
        simpa using compose_clusters [first]
      refine ⟨first :: found, ?_, ?_⟩
      · rw [List.flatten_cons, List.flatMap_append, same, rest, List.flatMap_cons]
      · rw [List.flatMap_cons, List.flatMap_cons, composed, alone]
  obtain ⟨found, same, composed⟩ := decomposed
  rw [nfkc, same, compose_clusters, composed]

/-- NFKC of a cluster: a starter that decomposes to the starters of the cluster's own, and marks. -/
theorem nfkc_cluster (composites : @Composites tables) {text : Str} (cluster : Cluster tables)
    (decomposed : text.flatMap tables.compatible = cluster.text) :
    ∃ head left, nfkc tables text = head :: left ∧ @Marks tables left ∧
      starters tables (tables.canonical head) = starters tables (tables.canonical cluster.starter) := by
  obtain ⟨head, left, composed, marks, _, same⟩ := composeFrom_cluster composites cluster.apart.1
    (fun c found => absurd found List.not_mem_nil) (marks_order cluster.only)
  refine ⟨head, left, ?_, marks, same⟩
  rw [nfkc, decomposed]
  calc compose tables (order tables cluster.text) = cluster.composed := by simpa using compose_clusters [cluster]
    _ = head :: left := composed

/-- A text of starters that nothing composes with, and that are not decomposed. -/
theorem nfkc_apart {text : Str} (apart : ∀ c ∈ text, Apart tables c) (own : ∀ c ∈ text, tables.compatible c = [c]) :
    nfkc tables text = text := by
  have alone : ∀ c ∈ text, [c].flatMap tables.compatible = [c] := by
    intro c found
    rw [List.flatMap_singleton, own c found]
  have single : ∀ c ∈ text, nfkc tables [c] = [c] := by
    intro c found
    have starter := (apart c found).1
    rw [nfkc, alone c found, order, if_pos starter, order, compose, if_pos starter]
    rfl
  have clusters : ∀ piece ∈ text.map (fun c => [c]), IsCluster tables piece := by
    intro piece member
    obtain ⟨c, found, same⟩ := List.mem_map.mp member
    exact ⟨⟨c, [], apart c found, fun d none => absurd none List.not_mem_nil⟩, same ▸ alone c found⟩
  have joined : (text.map (fun c => [c])).flatten = text := List.flatMap_singleton' text
  calc nfkc tables text = nfkc tables (text.map (fun c => [c])).flatten := by rw [joined]
    _ = (text.map (fun c => [c])).flatMap (nfkc tables) := nfkc_flatten clusters
    _ = text.flatMap (fun c => nfkc tables [c]) := List.flatMap_map ..
    _ = text.flatMap (fun c => [c]) := List.flatMap_congr single
    _ = text := List.flatMap_singleton' text

end Tesera.Text.Normalization
