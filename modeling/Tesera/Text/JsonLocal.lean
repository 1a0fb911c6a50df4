import Tesera.Text.JsonRoundTrip

/-!
Parsing is local: the parser reads a value from a prefix of the text, and reads the same
value from that prefix whatever comes after it, as long as what comes after does not
continue a number. So whitespace around an object does not change what it parses to.
-/

namespace Tesera.Text.JsonLocal
open Tesera.Text.Unicode Tesera.Text.Number Tesera.Text.Json Tesera.Text.JsonRoundTrip

theorem skipWs_split {text rest : Str} {c : Nat} (shape : skipWs text = c :: rest) :
    ∃ ws, text = ws ++ c :: rest ∧ (∀ w ∈ ws, isWs w = true) ∧ isWs c = false := by
  refine ⟨text.takeWhile isWs, ?_, fun w member => List.mem_takeWhile_imp member, ?_⟩
  · rw [← shape]
    exact List.takeWhile_append_dropWhile.symm
  · have stopped := List.head?_dropWhile_not isWs text
    have head : (text.dropWhile isWs).head? = some c := by
      rw [show text.dropWhile isWs = c :: rest from shape]
      rfl
    rw [head] at stopped
    simpa using stopped

theorem skipWs_append {ws : Str} (blank : ∀ w ∈ ws, isWs w = true) {c : Nat} (solid : isWs c = false)
    (more : Str) : skipWs (ws ++ c :: more) = c :: more := by
  unfold skipWs
  rw [List.dropWhile_append_of_pos blank]
  exact skipWs_of_not_ws more solid

/-- A number ends before whitespace and before a separator. -/
theorem tokenEnd_ws_append {ws : Str} (blank : ∀ w ∈ ws, isWs w = true) {more : Str}
    (ends : TokenEnd more) : TokenEnd (ws ++ more) := by
  cases ws with
  | nil => exact ends
  | cons w ws =>
    apply tokenEnd_cons
    have white := blank w List.mem_cons_self
    simp only [isWs, Bool.or_eq_true, beq_iff_eq] at white
    rcases white with ((rfl | rfl) | rfl) | rfl <;> decide

/-! ## Strings and scalars -/

theorem readEscape_local {dialect : Dialect} {text rest : Str} {p : Piece}
    (found : readEscape dialect text = some (p, rest)) :
    ∃ read, text = read ++ rest ∧ ∀ more, readEscape dialect (read ++ more) = some (p, more) := by
  cases text with
  | nil => cases found
  | cons c tail =>
    by_cases u : c = 117
    · simp only [readEscape, if_pos u, Option.map_eq_some_iff, Prod.mk.injEq] at found
      obtain ⟨⟨n, after⟩, hex, rfl, same⟩ := found
      unfold readHex4 at hex
      split at hex
      next a b d e tail =>
        split at hex
        next first second third fourth =>
          simp only [Option.some.injEq, Prod.mk.injEq] at hex
          obtain ⟨value, equal⟩ := hex
          subst equal
          subst same
          refine ⟨[c, a, b, d, e], rfl, fun more => ?_⟩
          simp [readEscape, u, readHex4, first, second, third, fourth, value]
        next => cases hex
      next => cases hex
    · cases letter : escapeOf c with
      | some v =>
        simp only [readEscape, if_neg u, letter, Option.some.injEq, Prod.mk.injEq] at found
        obtain ⟨rfl, rfl⟩ := found
        exact ⟨[c], rfl, fun more => by simp [readEscape, u, letter]⟩
      | none =>
        simp only [readEscape, if_neg u, letter] at found
        split_ifs at found with odd
        simp only [Option.some.injEq, Prod.mk.injEq] at found
        obtain ⟨rfl, rfl⟩ := found
        exact ⟨[c], rfl, fun more => by simp [readEscape, u, letter, odd]⟩

theorem readString_local {dialect : Dialect} {fuel : Nat} {text rest : Str} {s : List Piece}
    (found : readString dialect fuel text = some (s, rest)) :
    ∃ read, text = read ++ rest ∧
      ∀ n, read.length ≤ n → ∀ more, readString dialect n (read ++ more) = some (s, more) := by
  induction fuel generalizing text s rest with
  | zero => cases found
  | succ fuel ih =>
    cases text with
    | nil => cases found
    | cons c tail =>
      simp only [readString] at found
      split_ifs at found with close backslash control
      · cases found
        refine ⟨[c], rfl, fun n enough more => ?_⟩
        obtain ⟨m, rfl⟩ : ∃ m, n = m + 1 := ⟨n - 1, by simp at enough; omega⟩
        simp [readString, close]
      · cases escape : readEscape dialect tail with
        | none => simp [escape] at found
        | some pair =>
          obtain ⟨p, after⟩ := pair
          simp only [escape, Option.map_eq_some_iff, Prod.mk.injEq] at found
          obtain ⟨⟨s', rest'⟩, found, rfl, same⟩ := found
          subst same
          obtain ⟨read, rfl, again⟩ := readEscape_local escape
          obtain ⟨others, rfl, further⟩ := ih found
          refine ⟨c :: (read ++ others), by simp, fun n enough more => ?_⟩
          obtain ⟨m, rfl⟩ : ∃ m, n = m + 1 := ⟨n - 1, by simp at enough; omega⟩
          simp only [List.length_cons, List.length_append, Nat.add_le_add_iff_right] at enough
          simp only [List.cons_append, List.append_assoc, readString, if_neg close, if_pos backslash,
            again, further m (by omega), Option.map_some]
      · simp only [Option.map_eq_some_iff, Prod.mk.injEq] at found
        obtain ⟨⟨s', rest'⟩, found, rfl, same⟩ := found
        subst same
        obtain ⟨others, rfl, further⟩ := ih found
        refine ⟨c :: others, rfl, fun n enough more => ?_⟩
        obtain ⟨m, rfl⟩ : ∃ m, n = m + 1 := ⟨n - 1, by simp at enough; omega⟩
        simp only [List.length_cons, Nat.add_le_add_iff_right] at enough
        simp only [List.cons_append, readString, if_neg close, if_neg backslash, if_neg control,
          further m enough, Option.map_some]

theorem parseString_local {dialect : Dialect} {text rest : Str} {s : List Piece}
    (found : parseString dialect text = some (s, rest)) :
    ∃ read, text = read ++ rest ∧ ∀ more, parseString dialect (read ++ more) = some (s, more) := by
  obtain ⟨read, shape, again⟩ := readString_local found
  exact ⟨read, shape, fun more => again _ (by simp) more⟩

theorem parseLiteral_text {word text rest : Str} {value t : Tree}
    (found : parseLiteral word value text = some (t, rest)) : text = word ++ rest := by
  unfold parseLiteral at found
  split_ifs at found with isPre
  have shape := List.prefix_iff_eq_append.mp (List.isPrefixOf_iff_prefix.mp isPre)
  have after : text.drop word.length = rest := congrArg Prod.snd (Option.some.inj found)
  rw [← after]
  exact shape.symm

/-- A scalar is read from its own rendering. -/
theorem parseScalar_local {dialect : Dialect} {text rest : Str} {t : Tree}
    (found : parseScalar dialect text = some (t, rest)) :
    text = render t ++ rest ∧
      ∀ more, TokenEnd more → parseScalar dialect (render t ++ more) = some (t, more) := by
  simp only [parseScalar, Option.or_eq_some_iff] at found
  rcases found with word | ⟨-, word | ⟨-, word | ⟨-, const | ⟨-, number⟩⟩⟩⟩
  · cases parseLiteral_value word
    exact ⟨parseLiteral_text word, fun more _ => parseScalar_bool dialect true more⟩
  · cases parseLiteral_value word
    exact ⟨parseLiteral_text word, fun more _ => parseScalar_bool dialect false more⟩
  · cases parseLiteral_value word
    exact ⟨parseLiteral_text word, fun more _ => parseScalar_null dialect more⟩
  · unfold parseConst at const
    split_ifs at const with accepted
    simp only [Option.or_eq_some_iff] at const
    rcases const with word | ⟨-, word | ⟨-, word⟩⟩ <;> cases parseLiteral_value word <;>
      exact ⟨by simpa only [render] using parseLiteral_text word, fun more _ => by
        simpa only [render] using parseScalar_const dialect accepted _ more⟩
  · simp only [parseNumber, Option.map_eq_some_iff, Prod.mk.injEq] at number
    obtain ⟨⟨token, after⟩, accepted, rfl, same⟩ := number
    subst same
    obtain ⟨lexed, allowed⟩ := Option.filter_eq_some_iff.mp accepted
    refine ⟨by simpa only [render] using lexNumber_sound lexed, fun more ends => ?_⟩
    simpa only [render] using parseScalar_number dialect token allowed ends

/-! ## Values -/

/-- What the parser reads is a prefix of the text, begins where the text's first
character that is no whitespace stands, and is read again before any other rest. -/
def Local {α : Type} (call : Str → Option (α × Str)) (text : Str) (value : α) (rest : Str)
    (Ends : Str → Prop) : Prop :=
  ∃ read, text = read ++ rest ∧ (∀ more, (skipWs (read ++ more)).head? = (skipWs text).head?) ∧
    ∀ more, Ends more → call (read ++ more) = some (value, more)

def AnyEnd (_ : Str) : Prop := True

/-- The last character an object or an array consumes closes it. -/
def ClosedBy {α : Type} (call : Str → Option (α × Str)) (text : Str) (value : α) (rest : Str)
    (close : Nat) : Prop :=
  ∃ body, text = body ++ close :: rest ∧
    (∀ more, (skipWs (body ++ close :: more)).head? = (skipWs text).head?) ∧
    ∀ more, call (body ++ close :: more) = some (value, more)

theorem parse_local (dialect : Dialect) (fuel : Nat) :
    (∀ text t rest, parseValue dialect fuel text = some (t, rest) →
      Local (parseValue dialect fuel) text t rest TokenEnd) ∧
    (∀ text xs rest, parseArray dialect fuel text = some (xs, rest) →
      ClosedBy (parseArray dialect fuel) text xs rest 93) ∧
    (∀ text ms rest, parseObject dialect fuel text = some (ms, rest) →
      ClosedBy (parseObject dialect fuel) text ms rest 125) := by
  induction fuel with
  | zero =>
    refine ⟨?_, ?_, ?_⟩ <;> intro text r rest found
    · simp [parseValue] at found
    · simp [parseArray] at found
    · simp [parseObject] at found
  | succ fuel ih =>
    obtain ⟨value, array, object⟩ := ih
    refine ⟨?_, ?_, ?_⟩
    · intro text t rest found
      cases shape : skipWs text with
      | nil => simp [parseValue, shape] at found
      | cons c tail =>
        obtain ⟨ws, rfl, blank, solid⟩ := skipWs_split shape
        simp only [parseValue, shape] at found
        have heads : ∀ tail' more : Str,
            (skipWs ((ws ++ c :: tail') ++ more)).head? = (skipWs (ws ++ c :: tail)).head? := by
          intro tail' more
          rw [shape, List.append_assoc, List.cons_append, skipWs_append blank solid]
          rfl
        split_ifs at found with brace bracket quote
        · cases inner : skipWs tail with
          | nil => simp [inner] at found
          | cons d tail' =>
            obtain ⟨ws', rfl, blank', solid'⟩ := skipWs_split inner
            simp only [inner] at found
            split_ifs at found with close
            · cases found
              refine ⟨ws ++ c :: (ws' ++ [d]), by simp, heads _, fun more _ => ?_⟩
              simp only [List.append_assoc, List.cons_append, List.nil_append, parseValue, skipWs_append blank solid,
                if_pos brace, skipWs_append blank' solid', if_pos close]
            · simp only [Option.map_eq_some_iff, Prod.mk.injEq] at found
              obtain ⟨⟨ms, after⟩, found, rfl, same⟩ := found
              subst same
              obtain ⟨body, split, first, again⟩ := object _ _ _ found
              refine ⟨ws ++ c :: (body ++ [125]), by simp [split], heads _, fun more _ => ?_⟩
              have head := first more
              rw [inner] at head
              cases shapeAgain : skipWs (body ++ 125 :: more) with
              | nil => simp [shapeAgain] at head
              | cons d' rest' =>
                rw [shapeAgain, List.head?_cons, List.head?_cons, Option.some.injEq] at head
                subst head
                simp only [List.append_assoc, List.cons_append, List.nil_append, parseValue,
                  skipWs_append blank solid, if_pos brace, shapeAgain, if_neg close, again, Option.map_some]
        · cases inner : skipWs tail with
          | nil => simp [inner] at found
          | cons d tail' =>
            obtain ⟨ws', rfl, blank', solid'⟩ := skipWs_split inner
            simp only [inner] at found
            split_ifs at found with close
            · cases found
              refine ⟨ws ++ c :: (ws' ++ [d]), by simp, heads _, fun more _ => ?_⟩
              simp only [List.append_assoc, List.cons_append, List.nil_append, parseValue, skipWs_append blank solid,
                if_neg brace, if_pos bracket, skipWs_append blank' solid', if_pos close]
            · simp only [Option.map_eq_some_iff, Prod.mk.injEq] at found
              obtain ⟨⟨xs, after⟩, found, rfl, same⟩ := found
              subst same
              obtain ⟨body, split, first, again⟩ := array _ _ _ found
              refine ⟨ws ++ c :: (body ++ [93]), by simp [split], heads _, fun more _ => ?_⟩
              have head := first more
              rw [inner] at head
              cases shapeAgain : skipWs (body ++ 93 :: more) with
              | nil => simp [shapeAgain] at head
              | cons d' rest' =>
                rw [shapeAgain, List.head?_cons, List.head?_cons, Option.some.injEq] at head
                subst head
                simp only [List.append_assoc, List.cons_append, List.nil_append, parseValue,
                  skipWs_append blank solid, if_neg brace, if_pos bracket, shapeAgain, if_neg close, again,
                  Option.map_some]
        · simp only [Option.map_eq_some_iff, Prod.mk.injEq] at found
          obtain ⟨⟨s, after⟩, found, rfl, same⟩ := found
          subst same
          obtain ⟨read, rfl, again⟩ := parseString_local found
          refine ⟨ws ++ c :: read, by simp, heads _, fun more _ => ?_⟩
          simp only [List.append_assoc, List.cons_append, parseValue, skipWs_append blank solid,
            if_neg brace, if_neg bracket, if_pos quote, again, Option.map_some]
        · obtain ⟨split, again⟩ := parseScalar_local found
          obtain ⟨a, others, head, -⟩ := render_head t
          rw [head, List.cons_append, List.cons.injEq] at split
          obtain ⟨rfl, rfl⟩ := split
          refine ⟨ws ++ c :: others, by simp, heads _, fun more ends => ?_⟩
          have scalar := again more ends
          rw [head, List.cons_append] at scalar
          simp only [List.append_assoc, List.cons_append, parseValue, skipWs_append blank solid,
            if_neg brace, if_neg bracket, if_neg quote, scalar]
    · intro text xs rest found
      simp only [parseArray] at found
      cases first : parseValue dialect fuel text with
      | none => simp [first] at found
      | some pair =>
        obtain ⟨x, after⟩ := pair
        obtain ⟨read, split, heads, again⟩ := value _ _ _ first
        cases shape : skipWs after with
        | nil => simp [first, shape] at found
        | cons c tail =>
          obtain ⟨ws, rfl, blank, solid⟩ := skipWs_split shape
          simp only [first, shape] at found
          split_ifs at found with comma close
          · simp only [Option.map_eq_some_iff, Prod.mk.injEq] at found
            obtain ⟨⟨ys, after'⟩, found, rfl, same⟩ := found
            subst same
            obtain ⟨body, splitRest, -, againRest⟩ := array _ _ _ found
            refine ⟨read ++ (ws ++ c :: body), by simp [split, splitRest], fun more => ?_, fun more => ?_⟩
            · rw [List.append_assoc]
              exact heads _
            · have ends : TokenEnd (ws ++ c :: (body ++ 93 :: more)) :=
                tokenEnd_ws_append blank (tokenEnd_cons _ (by subst comma; decide))
              simp only [List.append_assoc, List.cons_append, parseArray, again _ ends,
                skipWs_append blank solid, if_pos comma, againRest, Option.map_some]
          · cases found
            subst close
            refine ⟨read ++ ws, by simp [split], fun more => ?_, fun more => ?_⟩
            · rw [List.append_assoc]
              exact heads _
            · have ends : TokenEnd (ws ++ 93 :: more) :=
                tokenEnd_ws_append blank (tokenEnd_cons _ (by decide))
              simp [parseArray, again _ ends, skipWs_append blank solid]
    · intro text ms rest found
      cases quote : skipWs text with
      | nil => simp [parseObject, quote] at found
      | cons q afterQuote =>
        obtain ⟨ws, rfl, blank, solid⟩ := skipWs_split quote
        simp only [parseObject, quote] at found
        split_ifs at found with isQuote
        have heads : ∀ tail' more : Str,
            (skipWs ((ws ++ q :: tail') ++ more)).head? = (some q : Option Nat) := by
          intro tail' more
          rw [List.append_assoc, List.cons_append, skipWs_append blank solid]
          rfl
        cases key : parseString dialect afterQuote with
        | none => simp [key] at found
        | some pair =>
          obtain ⟨k, afterKey⟩ := pair
          obtain ⟨readKey, rfl, againKey⟩ := parseString_local key
          cases colon : skipWs afterKey with
          | nil => simp [key, colon] at found
          | cons c afterColon =>
            obtain ⟨wsColon, rfl, blankColon, solidColon⟩ := skipWs_split colon
            simp only [key, colon] at found
            split_ifs at found with isColon
            cases first : parseValue dialect fuel afterColon with
            | none => simp [first] at found
            | some pair =>
              obtain ⟨x, after⟩ := pair
              obtain ⟨read, split, -, again⟩ := value _ _ _ first
              cases shape : skipWs after with
              | nil => simp [first, shape] at found
              | cons d tail =>
                obtain ⟨wsEnd, rfl, blankEnd, solidEnd⟩ := skipWs_split shape
                simp only [first, shape] at found
                split_ifs at found with comma close
                · simp only [Option.map_eq_some_iff, Prod.mk.injEq] at found
                  obtain ⟨⟨ms', after'⟩, found, rfl, same⟩ := found
                  subst same
                  obtain ⟨body, splitRest, -, againRest⟩ := object _ _ _ found
                  refine ⟨ws ++ q :: (readKey ++ (wsColon ++ c :: (read ++ (wsEnd ++ d :: body)))),
                    by simp [split, splitRest], fun more => ?_, fun more => ?_⟩
                  · rw [heads, quote]
                    rfl
                  · have ends : TokenEnd (wsEnd ++ d :: (body ++ 125 :: more)) :=
                      tokenEnd_ws_append blankEnd (tokenEnd_cons _ (by subst comma; decide))
                    simp only [List.append_assoc, List.cons_append, parseObject,
                      skipWs_append blank solid, if_pos isQuote, againKey,
                      skipWs_append blankColon solidColon, if_pos isColon, again _ ends,
                      skipWs_append blankEnd solidEnd, if_pos comma, againRest, Option.map_some]
                · cases found
                  subst close
                  refine ⟨ws ++ q :: (readKey ++ (wsColon ++ c :: (read ++ wsEnd))),
                    by simp [split], fun more => ?_, fun more => ?_⟩
                  · rw [heads, quote]
                    rfl
                  · have ends : TokenEnd (wsEnd ++ 125 :: more) :=
                      tokenEnd_ws_append blankEnd (tokenEnd_cons _ (by decide))
                    simp [parseObject, skipWs_append blank solid, if_pos isQuote, againKey,
                      skipWs_append blankColon solidColon, if_pos isColon, again _ ends,
                      skipWs_append blankEnd solidEnd, comma]

/-! ## Whole texts -/

theorem parse_of_value {dialect : Dialect} {text : Str} {t : Tree} {fuel : Nat}
    (found : parseValue dialect fuel text = some (t, [])) (enough : 2 * text.length + 2 ≤ fuel) :
    parse dialect text = some t := by
  have small := (parse_fuel dialect (2 * text.length + 2)).1 text (by omega) fuel enough
  rw [parse, ← small, found]
  rfl

/-- Whitespace after a text changes nothing. -/
theorem parse_append_ws {dialect : Dialect} {text ws : Str} {t : Tree} (parsed : parse dialect text = some t)
    (white : ∀ w ∈ ws, isWs w = true) : parse dialect (text ++ ws) = some t := by
  unfold parse at parsed
  cases found : parseValue dialect (2 * text.length + 2) text with
  | none => simp [found] at parsed
  | some pair =>
    obtain ⟨tree, rest⟩ := pair
    simp only [found] at parsed
    split_ifs at parsed with ended
    cases parsed
    have spaces : ∀ w ∈ rest ++ ws, isWs w = true :=
      List.forall_mem_append.mpr ⟨List.dropWhile_eq_nil_iff.mp ended, white⟩
    have enough : 2 * text.length + 2 ≤ 2 * (text ++ ws).length + 2 := by
      rw [List.length_append]
      omega
    rw [← (parse_fuel dialect (2 * text.length + 2)).1 text (by omega) _ enough] at found
    obtain ⟨read, split, -, again⟩ := (parse_local dialect _).1 _ _ _ found
    have ends := tokenEnd_ws_append spaces tokenEnd_nil
    rw [List.append_nil] at ends
    have longer := again (rest ++ ws) ends
    rw [← List.append_assoc, ← split] at longer
    have nothing : skipWs (rest ++ ws) = [] := List.dropWhile_eq_nil_iff.mpr spaces
    simp only [parse, longer, nothing, if_true]

/-- A text that parses to an object is one in braces, with nothing but whitespace around
it. -/
theorem parse_obj_core {dialect : Dialect} {text : Str} {ms : List (List Piece × Tree)}
    (parsed : parse dialect text = some (.obj ms)) :
    ∃ before body after, text = before ++ ((123 :: (body ++ [125])) ++ after) ∧
      (∀ w ∈ before, isWs w = true) ∧ (∀ w ∈ after, isWs w = true) ∧
      parse dialect (123 :: (body ++ [125])) = some (.obj ms) := by
  unfold parse at parsed
  cases found : parseValue dialect (2 * text.length + 2) text with
  | none => simp [found] at parsed
  | some pair =>
    obtain ⟨tree, rest⟩ := pair
    simp only [found] at parsed
    split_ifs at parsed with ended
    cases parsed
    have after : ∀ w ∈ rest, isWs w = true := List.dropWhile_eq_nil_iff.mp ended
    obtain ⟨read, split, -, again⟩ := (parse_local dialect _).1 _ _ _ found
    cases shape : skipWs text with
    | nil => simp [parseValue, shape] at found
    | cons c tail =>
      obtain ⟨before, rfl, blank, solid⟩ := skipWs_split shape
      simp only [parseValue, shape] at found
      split_ifs at found with brace bracket quote
      · have core : ∃ body, tail = body ++ 125 :: rest := by
          cases inner : skipWs tail with
          | nil => simp [inner] at found
          | cons d tail' =>
            simp only [inner] at found
            split_ifs at found with close
            · cases found
              obtain ⟨ws, split', -⟩ := skipWs_split inner
              exact ⟨ws, by rw [split', close]⟩
            · simp only [Option.map_eq_some_iff, Prod.mk.injEq] at found
              obtain ⟨⟨ms', after'⟩, found, -, same⟩ := found
              subst same
              obtain ⟨body, split', -⟩ := (parse_local dialect _).2.2 _ _ _ found
              exact ⟨body, split'⟩
        obtain ⟨body, rfl⟩ := core
        subst brace
        have text_eq : before ++ 123 :: (body ++ 125 :: rest) =
            (before ++ (123 :: (body ++ [125]))) ++ rest := by simp
        have whole : read = before ++ (123 :: (body ++ [125])) :=
          List.append_cancel_right (split.symm.trans text_eq)
        have value := again [] tokenEnd_nil
        rw [List.append_nil, whole] at value
        have inner : parseValue dialect
            (2 * (before ++ 123 :: (body ++ 125 :: rest)).length + 2) (123 :: (body ++ [125])) =
              some (.obj ms, []) := by
          rw [parseValue, skipWs_append blank solid] at value
          rw [parseValue, skipWs_of_not_ws _ solid]
          exact value
        refine ⟨before, body, rest, by simp, blank, after, parse_of_value inner ?_⟩
        simp only [List.length_append, List.length_cons, List.length_nil]
        omega
      · exfalso
        cases inner : skipWs tail with
        | nil => simp [inner] at found
        | cons d tail' =>
          simp only [inner] at found
          split_ifs at found
          · cases found
          · simp at found
      · simp at found
      · exfalso
        have flat := (parseScalar_ok found).2
        simp [depth] at flat

/-! ## Other whitespace around an object -/

/-- ASCII whitespace, which is more than the whitespace of JSON. -/
def isSpaceChar (c : Nat) : Bool := c == 32 || (decide (9 ≤ c) && decide (c ≤ 13))

theorem isSpaceChar_of_isWs {c : Nat} (white : isWs c = true) : isSpaceChar c = true := by
  simp only [isWs, Bool.or_eq_true, beq_iff_eq] at white
  rcases white with ((rfl | rfl) | rfl) | rfl <;> rfl

theorem parseScalar_space (dialect : Dialect) {c : Nat} (space : isSpaceChar c = true) (rest : Str) :
    parseScalar dialect (c :: rest) = none := by
  have range : c = 32 ∨ 9 ≤ c ∧ c ≤ 13 := by simpa [isSpaceChar] using space
  have word (text : Str) (a : Nat) (value : Tree) (head : text.head? = some a) (far : 33 ≤ a) :
      parseLiteral text value (c :: rest) = none :=
    parseLiteral_of_head value head rfl (by omega)
  have number : parseNumber dialect (c :: rest) = none := by
    unfold parseNumber
    cases found : lexNumber (c :: rest) with
    | none => rfl
    | some pair =>
      obtain ⟨head, tail, shape, first⟩ := number_head pair.1 pair.2
      rw [← lexNumber_sound found] at shape
      cases shape
      rcases first with digit | minus
      · have := isDigit_iff.mp digit
        omega
      · omega
  unfold parseScalar parseConst
  rw [word (render (.bool true)) 116 _ rfl (by decide), word (render (.bool false)) 102 _ rfl (by decide),
    word (render .null) 110 _ rfl (by decide), word Const.nan.text 78 _ rfl (by decide),
    word Const.infinity.text 73 _ rfl (by decide), word Const.negInfinity.text 45 _ rfl (by decide), number]
  cases dialect.consts <;> rfl

/-- After whitespace the parser either meets the brace or gives up at once. -/
theorem parseValue_spaced (dialect : Dialect) (fuel : Nat) {front : Str}
    (spaces : ∀ c ∈ front, isSpaceChar c = true) (more : Str) :
    (parseValue dialect (fuel + 1) (front ++ 123 :: more) = parseValue dialect (fuel + 1) (123 :: more) ∧
      deepest dialect (fuel + 1) (front ++ 123 :: more) = deepest dialect (fuel + 1) (123 :: more)) ∨
    (parseValue dialect (fuel + 1) (front ++ 123 :: more) = none ∧
      deepest dialect (fuel + 1) (front ++ 123 :: more) = 0) := by
  have brace : skipWs (123 :: more) = 123 :: more := skipWs_of_not_ws more (by decide)
  cases shape : skipWs front with
  | nil =>
    left
    have same : skipWs (front ++ 123 :: more) = 123 :: more :=
      skipWs_append (List.dropWhile_eq_nil_iff.mp shape) (by decide) more
    constructor
    · rw [parseValue, parseValue, same, brace]
    · rw [deepest, deepest, same, brace]
  | cons c rest =>
    right
    obtain ⟨before, rfl, white, solid⟩ := skipWs_split shape
    have space : isSpaceChar c = true := spaces c (by simp)
    have range : c = 32 ∨ 9 ≤ c ∧ c ≤ 13 := by simpa [isSpaceChar] using space
    have same : skipWs (before ++ c :: rest ++ 123 :: more) = c :: (rest ++ 123 :: more) := by
      rw [List.append_assoc]
      exact skipWs_append white solid _
    have notBrace : c ≠ 123 := by omega
    have notBracket : c ≠ 91 := by omega
    have notQuote : c ≠ 34 := by omega
    constructor
    · simp only [parseValue, same, if_neg notBrace, if_neg notBracket, if_neg notQuote]
      exact parseScalar_space dialect space _
    · simp only [deepest, same, if_neg notBrace, if_neg notBracket]

/-- An object with ASCII whitespace around it parses to the same value, or not at all, and
the parser does not nest more deeply on it. -/
theorem parse_spaced {dialect : Dialect} {core body front back : Str} {t : Tree} (brace : core = 123 :: body)
    (parsed : parse dialect core = some t) (before : ∀ c ∈ front, isSpaceChar c = true)
    (after : ∀ c ∈ back, isSpaceChar c = true) :
    (parse dialect (front ++ (core ++ back)) = some t ∨ parse dialect (front ++ (core ++ back)) = none) ∧
      nesting dialect (front ++ (core ++ back)) ≤ nesting dialect core := by
  rw [nesting_of_parse parsed]
  unfold parse at parsed
  cases found : parseValue dialect (2 * core.length + 2) core with
  | none => simp [found] at parsed
  | some pair =>
    obtain ⟨tree, rest⟩ := pair
    simp only [found] at parsed
    split_ifs at parsed with ended
    cases parsed
    have enough : 2 * core.length + 2 ≤ 2 * (front ++ (core ++ back)).length + 2 := by
      simp only [List.length_append]
      omega
    rw [← (parse_fuel dialect (2 * core.length + 2)).1 core (by omega) _ enough] at found
    obtain ⟨read, split, -, again⟩ := (parse_local dialect _).1 _ _ _ found
    have ends : TokenEnd (rest ++ back) := by
      cases back with
      | nil => exact tokenEnd_ws_append (List.dropWhile_eq_nil_iff.mp ended) tokenEnd_nil
      | cons c back =>
        apply tokenEnd_ws_append (List.dropWhile_eq_nil_iff.mp ended)
        apply tokenEnd_cons
        have space : c = 32 ∨ 9 ≤ c ∧ c ≤ 13 := by simpa [isSpaceChar] using after c List.mem_cons_self
        refine ⟨?_, by omega, by omega, by omega⟩
        cases digit : isDigit c with
        | false => rfl
        | true =>
          have := isDigit_iff.mp digit
          omega
    have longer := again (rest ++ back) ends
    rw [← List.append_assoc read, ← split] at longer
    have deep := (deepest_of_parse dialect _).1 _ _ _ longer
    have spaced := parseValue_spaced dialect (2 * (front ++ (core ++ back)).length + 1) before (body ++ back)
    rw [← List.cons_append, ← brace] at spaced
    rcases spaced with ⟨value, depths⟩ | ⟨value, depths⟩
    · have result := value.trans longer
      constructor
      · simp only [parse, result]
        split_ifs
        · exact .inl rfl
        · exact .inr rfl
      · exact le_of_eq (depths.trans deep)
    · have flat : nesting dialect (front ++ (core ++ back)) = 0 := depths
      constructor
      · right
        simp only [parse, value]
      · omega

end Tesera.Text.JsonLocal
