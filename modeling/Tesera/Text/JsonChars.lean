import Tesera.Text.Json

/-!
The characters of a rendered text. Apart from printable ASCII they are the characters
that stand for themselves in its strings, so a property of those is a property of the
whole text.
-/

namespace Tesera.Text.JsonChars
open Tesera.Text.Unicode Tesera.Text.Number Tesera.Text.Json

def pieceLiterals : Piece → Str
  | .lit c => [c]
  | .esc _ => []
  | .odd c => [c]

mutual

/-- The characters written as themselves in the strings of a tree, keys included. -/
def literals : Tree → Str
  | .str text => text.flatMap pieceLiterals
  | .arr items => literalsItems items
  | .obj members => literalsMembers members
  | _ => []

def literalsItems : List Tree → Str
  | [] => []
  | x :: xs => literals x ++ literalsItems xs

def literalsMembers : List (List Piece × Tree) → Str
  | [] => []
  | (k, v) :: ms => k.flatMap pieceLiterals ++ (literals v ++ literalsMembers ms)

end

section Every

variable {P : Nat → Prop} (ascii : ∀ c, 32 ≤ c → c < 127 → P c)
include ascii

theorem every_digits (run : Digits) : ∀ c ∈ run.text, P c := by
  intro c member
  have := isDigit_iff.mp (run.digits c member)
  exact ascii c (by omega) (by omega)

theorem every_token (token : Token) : ∀ c ∈ token.text, P c := by
  have minus := ascii 45 (by decide) (by decide)
  have frac : ∀ c ∈ token.fracText, P c := by
    unfold Token.fracText
    split
    · exact List.forall_mem_nil P
    · exact List.forall_mem_cons.mpr ⟨ascii 46 (by decide) (by decide), every_digits ascii _⟩
  have exp : ∀ c ∈ token.expText, P c := by
    unfold Token.expText
    split
    · exact List.forall_mem_nil P
    next e _ =>
      have letter : P (if e.upper then 69 else 101) := by split_ifs <;> exact ascii _ (by decide) (by decide)
      have sign : ∀ c ∈ e.signText, P c := by
        unfold Exponent.signText
        split
        · exact List.forall_mem_nil P
        · exact List.forall_mem_singleton.mpr (ascii _ (by decide) (by decide))
        · exact List.forall_mem_singleton.mpr (ascii _ (by decide) (by decide))
      exact List.forall_mem_cons.mpr ⟨letter, List.forall_mem_append.mpr ⟨sign, every_digits ascii _⟩⟩
  have sign : ∀ c ∈ (if token.neg then [45] else [] : Str), P c := by
    split_ifs
    · exact List.forall_mem_singleton.mpr minus
    · exact List.forall_mem_nil P
  unfold Token.text
  simp only [List.forall_mem_append]
  exact ⟨sign, every_digits ascii _, frac, exp⟩

theorem hexDigit_ascii (n : Nat) (small : n < 16) : P (hexDigit n) := by
  apply ascii <;> (unfold hexDigit; split_ifs <;> omega)

theorem every_piece (p : Piece) : (∀ c ∈ p.text, P c) ↔ ∀ c ∈ pieceLiterals p, P c := by
  have backslash := ascii 92 (by decide) (by decide)
  cases p with
  | lit c => rfl
  | odd c => simp [Piece.text, pieceLiterals, backslash]
  | esc c =>
    have here : ∀ d ∈ (Piece.esc c).text, P d := by
      cases found : letterOf c with
      | some letter =>
        have bounds : 32 ≤ letter ∧ letter < 127 := by
          unfold letterOf at found
          split_ifs at found <;> simp only [Option.some.injEq] at found <;> omega
        simp [Piece.text, found, backslash, ascii letter bounds.1 bounds.2]
      | none =>
        have hex := fun n => hexDigit_ascii ascii (n % 16) (Nat.mod_lt _ (by decide))
        simp [Piece.text, found, hex4, backslash, hex, ascii 117 (by decide) (by decide)]
    exact ⟨fun _ => List.forall_mem_nil P, fun _ => here⟩

theorem every_quote (text : List Piece) :
    (∀ c ∈ quote text, P c) ↔ ∀ c ∈ text.flatMap pieceLiterals, P c := by
  have mark := ascii 34 (by decide) (by decide)
  simp only [quote, List.forall_mem_cons, List.forall_mem_append, mark, List.not_mem_nil, false_implies,
    implies_true, and_true, true_and, List.forall_mem_flatMap]
  exact forall₂_congr (fun p _ => every_piece ascii p)

mutual

theorem every_render : ∀ t : Tree, (∀ c ∈ render t, P c) ↔ ∀ c ∈ literals t, P c
  | .null => by simp [render, literals, ascii]
  | .bool true => by simp [render, literals, ascii]
  | .bool false => by simp [render, literals, ascii]
  | .const c => by cases c <;> simp [render, Const.text, literals, ascii]
  | .num token => by
    simp only [render, literals, List.not_mem_nil, false_implies, implies_true, iff_true]
    exact every_token ascii token
  | .str text => by
    simp only [render, literals]
    exact every_quote ascii text
  | .arr [] => by simp [render, literals, literalsItems, ascii]
  | .arr (x :: xs) => by
    simp only [render, literals, literalsItems, List.forall_mem_cons, List.forall_mem_append,
      every_render x, every_renderItems xs, ascii 91 (by decide) (by decide), true_and]
  | .obj [] => by simp [render, literals, literalsMembers, ascii]
  | .obj ((k, v) :: ms) => by
    simp only [render, literals, literalsMembers, List.forall_mem_cons, List.forall_mem_append,
      every_quote ascii k, every_render v, every_renderMembers ms, ascii 123 (by decide) (by decide),
      ascii 58 (by decide) (by decide), true_and]

theorem every_renderItems : ∀ xs : List Tree,
    (∀ c ∈ renderItems xs, P c) ↔ ∀ c ∈ literalsItems xs, P c
  | [] => by simp [renderItems, literalsItems, ascii]
  | x :: xs => by
    simp only [renderItems, literalsItems, List.forall_mem_cons, List.forall_mem_append,
      every_render x, every_renderItems xs, ascii 44 (by decide) (by decide), true_and]

theorem every_renderMembers : ∀ ms : List (List Piece × Tree),
    (∀ c ∈ renderMembers ms, P c) ↔ ∀ c ∈ literalsMembers ms, P c
  | [] => by simp [renderMembers, literalsMembers, ascii]
  | (k, v) :: ms => by
    simp only [renderMembers, literalsMembers, List.forall_mem_cons, List.forall_mem_append,
      every_quote ascii k, every_render v, every_renderMembers ms, ascii 44 (by decide) (by decide),
      ascii 58 (by decide) (by decide), true_and]

end

end Every

end Tesera.Text.JsonChars
