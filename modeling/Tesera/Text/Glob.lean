import Mathlib

/-!
Patterns over any alphabet: a token stands for one element of a class or for a run of
elements of a class, and a pattern for the words that are one after another what its
tokens stand for.
-/

namespace Tesera.Text.Glob

variable {α : Type}

inductive Token (α : Type) where
  | one (p : α → Bool)
  | many (p : α → Bool)

/-- Some run of elements of the class, with the rest of the word accepted. -/
def runThen (p : α → Bool) (next : List α → Bool) : List α → Bool
  | [] => next []
  | c :: word => next (c :: word) || (p c && runThen p next word)

/-- The whole word is accepted. -/
def accepts : List (Token α) → List α → Bool
  | [], word => word.isEmpty
  | .one _ :: _, [] => false
  | .one p :: tokens, c :: word => p c && accepts tokens word
  | .many p :: tokens, word => runThen p (accepts tokens) word

/-! ## Tokens that agree on a word -/

/-- Two tokens of one kind whose classes agree on the elements of a word. -/
inductive SameOn (word : List α) : Token α → Token α → Prop where
  | one {p q : α → Bool} (same : ∀ c ∈ word, p c = q c) : SameOn word (.one p) (.one q)
  | many {p q : α → Bool} (same : ∀ c ∈ word, p c = q c) : SameOn word (.many p) (.many q)

theorem SameOn.suffix {word rest : List α} (inside : rest <:+ word) {t u : Token α} (same : SameOn word t u) :
    SameOn rest t u := by
  cases same with
  | one same => exact .one (fun c member => same c (inside.subset member))
  | many same => exact .many (fun c member => same c (inside.subset member))

theorem runThen_congr {p q : α → Bool} {next other : List α → Bool} {word : List α} (same : ∀ c ∈ word, p c = q c)
    (alike : ∀ rest, rest <:+ word → next rest = other rest) : runThen p next word = runThen q other word := by
  induction word with
  | nil => exact alike [] List.suffix_rfl
  | cons c word ih =>
    have later := ih (fun d member => same d (List.mem_cons_of_mem c member))
      (fun rest inside => alike rest (inside.trans (List.suffix_cons c word)))
    rw [runThen, runThen, alike (c :: word) List.suffix_rfl, same c List.mem_cons_self, later]

theorem accepts_congr {tokens others : List (Token α)} {word : List α}
    (same : List.Forall₂ (SameOn word) tokens others) : accepts tokens word = accepts others word := by
  induction tokens generalizing others word with
  | nil =>
    cases same
    rfl
  | cons t tokens ih =>
    cases same with
    | cons first rest =>
      have later : ∀ {tail}, tail <:+ word → accepts tokens tail = accepts _ tail := fun inside =>
        ih (rest.imp (fun _ _ alike => alike.suffix inside))
      cases first with
      | one alike =>
        cases word with
        | nil => rfl
        | cons c word => rw [accepts, accepts, alike c List.mem_cons_self, later (List.suffix_cons c word)]
      | many alike =>
        rw [accepts, accepts]
        exact runThen_congr alike (fun _ inside => later inside)

end Tesera.Text.Glob
