import LinearCalculus.Codec.Decoder
import LinearCalculus.Json.Writer

namespace LinearCalculus

def Var.toJson (v : Var) : Json := Json.ofNat v.id

def Connective.toJson : Connective → Json
  | .and => Json.ofString "And"
  | .or => Json.ofString "Or"

def Quantifier.toJson : Quantifier → Json
  | .all => Json.ofString "Forall"
  | .ex => Json.ofString "Exists"

def Formula.toJson : Formula → Json
  | .holds a b => .tagged "Holds" (.array [a.toJson, b.toJson])
  | .identical a b => .tagged "Identical" (.array [a.toJson, b.toJson])
  | .unit value => .tagged "Unit" (Json.ofString (if value then "True" else "False"))
  | .not f => .tagged "Not" f.toJson
  | .always f => .tagged "Always" f.toJson
  | .conj k l r => .tagged "Conj" (.array [k.toJson, l.toJson, r.toJson])
  | .quant q v f => .tagged "Quant" (.array [q.toJson, v.toJson, f.toJson])

namespace Decoder

variable {σ : Type} [Notes σ]

def varPair : Nat → Json → DecoderOver σ (Var × Var)
  | _ + 1, .array items => two var var items
  | _, _ => malformed

/-- The argument of a tag, inside at most `levels` further brackets. A formula in it is
decoded by `direct`, and by `listed` if it stands in an array. -/
def formulaArgument (form : Form) (levels : Nat) (direct listed : Json → DecoderOver σ Formula)
    (name : String) (argument : Json) : DecoderOver σ Formula :=
  match name, levels, argument with
  | "Holds", levels, argument => do
    let (a, b) ← varPair levels argument
    return .holds a b
  | "Identical", levels, argument => do
    let (a, b) ← varPair levels argument
    return .identical a b
  | "Unit", levels, argument => .unit <$> unit form levels argument
  | "Not", _, argument => .not <$> direct argument
  | "Always", _, argument => .always <$> direct argument
  | "Conj", levels + 1, .array items => do
    let (k, l, r) ← three (connective form levels) listed listed items
    return .conj k l r
  | "Quant", levels + 1, .array items => do
    let (q, v, f) ← three (quantifier form levels) var listed items
    return .quant q v f
  | _, _, _ => malformed

mutual

def formula (form : Form) : Nat → Json → DecoderOver σ Formula
  | 0, _ => malformed
  | levels + 1, j =>
    argumentOf form
      (formulaArgument form levels (formula form levels) (formulaListed form levels)) j

def formulaListed (form : Form) : Nat → Json → DecoderOver σ Formula
  | 0, _ => malformed
  | levels + 1, j => formula form levels j

end

end Decoder

end LinearCalculus
