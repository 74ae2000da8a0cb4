import LinearCalculus.Codec.Formula
import LinearCalculus.Surface.Formula

namespace LinearCalculus

namespace Surface.Formula

mutual

def toJson : Formula → Json
  | holds a b => .tagged "Holds" (.array [a.toJson, b.toJson])
  | identical a b => .tagged "Identical" (.array [a.toJson, b.toJson])
  | not f => .tagged "Not" f.toJson
  | conj k fs => .tagged "Conj" (.array [k.toJson, .array (toJsonList fs)])
  | always f => .tagged "Always" f.toJson
  | quant q vs f => .tagged "Quant" (.array [q.toJson, .array (vs.map Var.toJson), f.toJson])
  | implies a b => .tagged "Implies" (.array [a.toJson, b.toJson])
  | iff a b => .tagged "Iff" (.array [a.toJson, b.toJson])
  | hidden name f => .tagged "Hidden" (.array [Json.ofString name, f.toJson])

def toJsonList : List Formula → List Json
  | [] => []
  | f :: fs => f.toJson :: toJsonList fs

end

end Surface.Formula

namespace Decoder

variable {σ : Type} [Notes σ]

def list {α : Type} (decode : Nat → Json → DecoderOver σ α) : Nat → Json → DecoderOver σ (List α)
  | levels + 1, .array items => items.mapM (decode levels)
  | _, _ => malformed

def name : Json → DecoderOver σ String
  | .string lexeme => need (Json.textOf? lexeme)
  | _ => malformed

/-- The argument of a tag, inside at most `levels` further brackets. A formula in it is
decoded by `direct`, by `listed` if it stands in an array, and by `deeper` if it stands in
an array that is in an array. -/
def surfaceArgument (form : Form) (levels : Nat)
    (direct listed deeper : Json → DecoderOver σ Surface.Formula) (name : String)
    (argument : Json) : DecoderOver σ Surface.Formula :=
  match name, levels, argument with
  | "Holds", levels, argument => do
    let (a, b) ← varPair levels argument
    return .holds a b
  | "Identical", levels, argument => do
    let (a, b) ← varPair levels argument
    return .identical a b
  | "Not", _, argument => .not <$> direct argument
  | "Always", _, argument => .always <$> direct argument
  | "Conj", levels + 1, .array items => do
    let (k, fs) ← two (connective form levels) (list (fun _ => deeper) levels) items
    return .conj k fs
  | "Quant", levels + 1, .array items => do
    let (q, vs, f) ← three (quantifier form levels) (list (fun _ => var) levels) listed items
    return .quant q vs f
  | "Implies", _ + 1, .array items => do
    let (a, b) ← two listed listed items
    return .implies a b
  | "Iff", _ + 1, .array items => do
    let (a, b) ← two listed listed items
    return .iff a b
  | "Hidden", _ + 1, .array items => do
    let (s, f) ← two Decoder.name listed items
    return .hidden s f
  | _, _, _ => malformed

mutual

def surfaceFormula (form : Form) : Nat → Json → DecoderOver σ Surface.Formula
  | 0, _ => malformed
  | levels + 1, j =>
    argumentOf form (surfaceArgument form levels (surfaceFormula form levels)
      (surfaceListed form levels) (surfaceDeeper form levels)) j

def surfaceListed (form : Form) : Nat → Json → DecoderOver σ Surface.Formula
  | 0, _ => malformed
  | levels + 1, j => surfaceFormula form levels j

def surfaceDeeper (form : Form) : Nat → Json → DecoderOver σ Surface.Formula
  | 0, _ => malformed
  | levels + 1, j => surfaceListed form levels j

end

end Decoder

end LinearCalculus
