import Tesera.Text.JsonRoundTrip

/-!
Two dialects that differ only in the stray escapes they accept. What the narrower one
parses, the wider one parses alike, so a text rendered for the wider one is read by the
narrower one exactly if the tree needs no such escape.
-/

namespace Tesera.Text.JsonDialect
open Tesera.Text.Unicode Tesera.Text.Number Tesera.Text.Json Tesera.Text.JsonRoundTrip

structure Wider (narrow wide : Dialect) : Prop where
  consts : narrow.consts = wide.consts
  token : narrow.token = wide.token
  odd : ∀ c, narrow.odd c = true → wide.odd c = true

section Widen

variable {narrow wide : Dialect} (wider : Wider narrow wide)
include wider

theorem readEscape_widen {text rest : Str} {p : Piece} (read : readEscape narrow text = some (p, rest)) :
    readEscape wide text = some (p, rest) := by
  cases text with
  | nil => cases read
  | cons c tail =>
    by_cases u : c = 117
    · simp only [readEscape, if_pos u] at read ⊢
      exact read
    · simp only [readEscape, if_neg u] at read ⊢
      cases found : escapeOf c with
      | some v =>
        rw [found] at read
        exact read
      | none =>
        rw [found] at read
        simp only at read ⊢
        split_ifs at read with stray
        rw [if_pos (wider.odd c stray)]
        exact read

theorem readString_widen {fuel : Nat} {text rest : Str} {s : List Piece}
    (read : readString narrow fuel text = some (s, rest)) : readString wide fuel text = some (s, rest) := by
  induction fuel generalizing text s with
  | zero => cases read
  | succ fuel ih =>
    cases text with
    | nil => cases read
    | cons c tail =>
      simp only [readString] at read ⊢
      split_ifs at read ⊢ with quote backslash control
      · exact read
      · cases escape : readEscape narrow tail with
        | none => simp [escape] at read
        | some found =>
          obtain ⟨p, after⟩ := found
          simp only [escape] at read
          simp only [readEscape_widen wider escape]
          obtain ⟨⟨s', rest'⟩, inner, same⟩ := Option.map_eq_some_iff.mp read
          cases same
          rw [ih inner]
          rfl
      · obtain ⟨⟨s', rest'⟩, inner, same⟩ := Option.map_eq_some_iff.mp read
        cases same
        rw [ih inner]
        rfl

theorem parseString_widen {text rest : Str} {s : List Piece}
    (read : parseString narrow text = some (s, rest)) : parseString wide text = some (s, rest) :=
  readString_widen wider read

theorem parseScalar_widen (text : Str) : parseScalar narrow text = parseScalar wide text := by
  unfold parseScalar parseConst parseNumber
  rw [wider.consts, wider.token]

theorem parseValue_widen (fuel : Nat) :
    (∀ text t rest, parseValue narrow fuel text = some (t, rest) →
      parseValue wide fuel text = some (t, rest)) ∧
    (∀ text xs rest, parseArray narrow fuel text = some (xs, rest) →
      parseArray wide fuel text = some (xs, rest)) ∧
    (∀ text ms rest, parseObject narrow fuel text = some (ms, rest) →
      parseObject wide fuel text = some (ms, rest)) := by
  induction fuel with
  | zero =>
    refine ⟨?_, ?_, ?_⟩ <;> intro text r rest found <;> simp [parseValue, parseArray, parseObject] at found
  | succ fuel ih =>
    obtain ⟨value, array, object⟩ := ih
    refine ⟨?_, ?_, ?_⟩
    · intro text t rest found
      cases shape : skipWs text with
      | nil => simp [parseValue, shape] at found
      | cons c tail =>
        simp only [parseValue, shape] at found ⊢
        split_ifs at found ⊢ with brace bracket quote
        · cases inner : skipWs tail with
          | nil => simp [inner] at found
          | cons d tail' =>
            simp only [inner] at found ⊢
            split_ifs at found ⊢ with close
            · exact found
            · obtain ⟨⟨ms, after⟩, members, same⟩ := Option.map_eq_some_iff.mp found
              rw [object _ _ _ members]
              exact congrArg some same
        · cases inner : skipWs tail with
          | nil => simp [inner] at found
          | cons d tail' =>
            simp only [inner] at found ⊢
            split_ifs at found ⊢ with close
            · exact found
            · obtain ⟨⟨xs, after⟩, items, same⟩ := Option.map_eq_some_iff.mp found
              rw [array _ _ _ items]
              exact congrArg some same
        · obtain ⟨⟨s, after⟩, string, same⟩ := Option.map_eq_some_iff.mp found
          rw [parseString_widen wider string]
          exact congrArg some same
        · rw [← parseScalar_widen wider]
          exact found
    · intro text xs rest found
      cases first : parseValue narrow fuel text with
      | none => simp [parseArray, first] at found
      | some pair =>
        obtain ⟨x, after⟩ := pair
        simp only [parseArray, first, value _ _ _ first] at found ⊢
        cases shape : skipWs after with
        | nil => simp [shape] at found
        | cons c tail =>
          simp only [shape] at found ⊢
          split_ifs at found ⊢ with comma close
          · obtain ⟨⟨ys, after'⟩, items, same⟩ := Option.map_eq_some_iff.mp found
            rw [array _ _ _ items]
            exact congrArg some same
          · exact found
    · intro text ms rest found
      cases quote : skipWs text with
      | nil => simp [parseObject, quote] at found
      | cons q afterQuote =>
        simp only [parseObject, quote] at found ⊢
        split_ifs at found ⊢ with isQuote
        cases key : parseString narrow afterQuote with
        | none => simp [key] at found
        | some pair =>
          obtain ⟨k, afterKey⟩ := pair
          simp only [key, parseString_widen wider key] at found ⊢
          cases colon : skipWs afterKey with
          | nil => simp [colon] at found
          | cons c afterColon =>
            simp only [colon] at found ⊢
            split_ifs at found ⊢ with isColon
            cases first : parseValue narrow fuel afterColon with
            | none => simp [first] at found
            | some pair =>
              obtain ⟨x, after⟩ := pair
              simp only [first, value _ _ _ first] at found ⊢
              cases shape : skipWs after with
              | nil => simp [shape] at found
              | cons d tail =>
                simp only [shape] at found ⊢
                split_ifs at found ⊢ with comma close
                · obtain ⟨⟨ms', after'⟩, members, same⟩ := Option.map_eq_some_iff.mp found
                  rw [object _ _ _ members]
                  exact congrArg some same
                · exact found

/-- What the narrower dialect accepts, the wider one accepts as the same tree. -/
theorem parse_widen {text : Str} {t : Tree} (parsed : parse narrow text = some t) :
    parse wide text = some t := by
  unfold parse at parsed ⊢
  cases found : parseValue narrow (2 * text.length + 2) text with
  | none => simp [found] at parsed
  | some pair =>
    obtain ⟨tree, rest⟩ := pair
    simp only [found] at parsed
    rw [(parseValue_widen wider _).1 _ _ _ found]
    exact parsed

/-- A rendered tree is read by the narrower dialect exactly if that dialect can express
it. -/
theorem parse_render_narrow {t : Tree} (ok : TreeOk wide t) :
    (∃ s, parse narrow (render t) = some s) ↔ TreeOk narrow t := by
  constructor
  · intro ⟨s, parsed⟩
    have same : s = t := Option.some.inj ((parse_widen wider parsed).symm.trans (parse_render wide t ok))
    exact same ▸ treeOk_of_parse parsed
  · intro fits
    exact ⟨t, parse_render narrow t fits⟩

end Widen

end Tesera.Text.JsonDialect
