import Tesera.TypeScript.RawTree

/-!
The encoding of the verifier for Node, `verify.mjs`. Its raw parse and the walk over the tree
are those of `Canonical.ts`; it writes the numbers its own way.
-/

namespace Tesera.Node.Canonical
open Tesera.Text Tesera.Text.Unicode Tesera.Text.Number Tesera.Text.Decimal Tesera.Text.Json
open Tesera.TypeScript.Value Tesera.TypeScript.Canonical Tesera.TypeScript.RawTree

/-- A finite number as a template literal writes it, where -0 loses its sign. -/
def template (d : Dec) : Token :=
  if d.digits = [] then ⟨false, Digits.zero, canonical_zero, none, none⟩ else numberToken d

/-- The mantissa gets a fraction and the exponent its sign and at least two digits. -/
def respell (token : Token) : Token :=
  match token.exp with
  | none => token
  | some e => { token with frac := some (token.frac.getD Digits.zero), exp := some (exponentOf 2 e.toInt) }

def floatToken (d : Dec) : Token :=
  if isInteger d = true ∧ d.point ≤ 16 then { template d with frac := some Digits.zero }
  else respell (template d)

/-- `pyFloat`; numbers that are not finite come out as their names. -/
def pyFloat : Double → Option Tree
  | .finite d => some (.num (floatToken d))
  | .nan => some (.const .nan)
  | .infinite false => some (.const .infinity)
  | .infinite true => some (.const .negInfinity)

/-- `canonicalRaw(node)`; none where it throws. -/
def canonicalRaw (host : Host) (node : Node) : Option Str := encodeRaw pyFloat host node

theorem template_of_nonzero {d : Dec} (nonzero : d.digits ≠ []) : template d = numberToken d :=
  if_neg nonzero

theorem respell_of_plain {token : Token} (plain : token.exp = none) : respell token = token := by
  simp only [respell, plain]

end Tesera.Node.Canonical
