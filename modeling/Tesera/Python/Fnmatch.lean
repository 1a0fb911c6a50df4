import Tesera.Text.Glob
import Tesera.Text.Unicode

/-!
`fnmatch.fnmatchcase`: what the regular expression matches that `fnmatch.translate` makes
of a pattern. A class is translated as the library does it, by cutting what stands
between the brackets at its hyphens and dropping the ranges that are empty.
-/

namespace Tesera.Python.Fnmatch
open Tesera.Text.Unicode Tesera.Text.Glob

/-- Where the bracket is that closes a class; one that stands first does not. -/
def classLength (after : Str) : Nat :=
  let bang := if after.head? = some 33 then 1 else 0
  let bracket := if (after.drop bang).head? = some 93 then 1 else 0
  bang + bracket + ((after.drop (bang + bracket)).takeWhile (fun c => c != 93)).length

/-- The inside of a class and what follows it. -/
def splitClass (after : Str) : Option (Str × Str) :=
  match after.drop (classLength after) with
  | [] => none
  | _ :: rest => some (after.take (classLength after), rest)

/-- Cut at hyphens, looked for from a position on; one at the end stands for itself. -/
def cutRanges : Nat → Nat → Str → List Str
  | 0, _, stuff => [stuff]
  | fuel + 1, start, stuff =>
      let chunk := stuff.take start ++ (stuff.drop start).takeWhile (fun c => c != 45)
      match stuff.drop chunk.length with
      | [] => [stuff]
      | _ :: [] => [chunk ++ [45]]
      | _ :: rest => chunk :: cutRanges fuel 2 rest

/-- A range from a character to a smaller one is dropped with both. -/
def dropEmptyRanges : List Str → List Str
  | [] => []
  | chunk :: chunks =>
      match dropEmptyRanges chunks with
      | [] => [chunk]
      | next :: rest =>
          if next.headD 0 < chunk.getLastD 0 then (chunk.dropLast ++ next.tail) :: rest
          else chunk :: next :: rest

/-- The characters of the chunks and of the ranges between one and the next. After nothing,
a hyphen stands for itself. -/
def inChunks : List Str → Nat → Bool
  | [], _ => false
  | [chunk], c => chunk.contains c
  | [] :: next :: rest, c => c == 45 || inChunks (next :: rest) c
  | chunk :: next :: rest, c =>
      chunk.contains c || (decide (chunk.getLastD 0 ≤ c) && decide (c ≤ next.headD 0)) || inChunks (next :: rest) c

/-- The class with this inside. An empty one has no character, an empty one negated every. -/
def inClass (stuff : Str) : Nat → Bool :=
  let start := if stuff.head? = some 33 then 2 else 1
  match dropEmptyRanges (cutRanges stuff.length start stuff) with
  | (33 :: first) :: rest => fun c => !inChunks (first :: rest) c
  | chunks => inChunks chunks

/-- The pattern from a position on. Each step takes a character, so the length of the
pattern bounds the steps. -/
def translateFrom : Nat → Str → List (Token Nat)
  | 0, _ => []
  | _ + 1, [] => []
  | fuel + 1, c :: rest =>
      if c = 42 then .many (fun _ => true) :: translateFrom fuel rest
      else if c = 63 then .one (fun _ => true) :: translateFrom fuel rest
      else if c = 91 then
        match splitClass rest with
        | some (stuff, after) => .one (inClass stuff) :: translateFrom fuel after
        | none => .one (fun d => d == 91) :: translateFrom fuel rest
      else .one (fun d => d == c) :: translateFrom fuel rest

def translate (pattern : Str) : List (Token Nat) := translateFrom pattern.length pattern

def fnmatchcase (name pattern : Str) : Bool := accepts (translate pattern) name

/-! ## Patterns without a class -/

/-- What a character of a pattern without a class stands for. -/
def tokenOf (c : Nat) : Token Nat :=
  if c = 42 then .many (fun _ => true) else if c = 63 then .one (fun _ => true) else .one (fun d => d == c)

theorem translateFrom_plain {fuel : Nat} {pattern : Str} (enough : pattern.length ≤ fuel)
    (plain : ∀ c ∈ pattern, c ≠ 91) : translateFrom fuel pattern = pattern.map tokenOf := by
  induction pattern generalizing fuel with
  | nil =>
    cases fuel with
    | zero => rfl
    | succ fuel => rfl
  | cons c rest ih =>
    cases fuel with
    | zero => simp at enough
    | succ fuel =>
      have later := ih (Nat.le_of_succ_le_succ enough) (fun d member => plain d (List.mem_cons_of_mem c member))
      have literal : c ≠ 91 := plain c List.mem_cons_self
      rw [List.map_cons, ← later, translateFrom, tokenOf]
      split_ifs <;> rfl

theorem translate_plain {pattern : Str} (plain : ∀ c ∈ pattern, c ≠ 91) : translate pattern = pattern.map tokenOf :=
  translateFrom_plain le_rfl plain

example : fnmatchcase (lit "pay.eu") (lit "pay.*") = true := by decide
example : fnmatchcase (lit "pay7") (lit "pay[0-9]") = true := by decide
example : fnmatchcase (lit "pay7") (lit "pay[!0-9]") = false := by decide

end Tesera.Python.Fnmatch
