import LinearCalculus.Codec.Fields

/-! Arrows as JSON: each is an object whose only member names the rule at its root.

Decoding checks every arrow below the root as soon as it has been read; the arrow
as a whole is left to be checked by whoever asked for it. -/

namespace LinearCalculus

def Orientation.toJson : Orientation → Json
  | .forward => Json.ofString "Forward"
  | .backward => Json.ofString "Backward"

def Primitive.toJson : Primitive → Json
  | .commute k a b => .tagged "Commute" (.array [k.toJson, a.toJson, b.toJson])
  | .associateA k a b c => .tagged "AssociateA" (.array [k.toJson, a.toJson, b.toJson, c.toJson])
  | .associateB k a b c => .tagged "AssociateB" (.array [k.toJson, a.toJson, b.toJson, c.toJson])
  | .introUnit k a => .tagged "IntroUnit" (.array [k.toJson, a.toJson])
  | .removeUnit k a => .tagged "RemoveUnit" (.array [k.toJson, a.toJson])
  | .distribute a b c => .tagged "Distribute" (.array [a.toJson, b.toJson, c.toJson])
  | .forget a b => .tagged "Forget" (.array [a.toJson, b.toJson])
  | .widen a b => .tagged "Admit" (.array [a.toJson, b.toJson])
  | .apply a b => .tagged "Apply" (.array [a.toJson, b.toJson])
  | .introDoubleDual a => .tagged "IntroDoubleDual" a.toJson
  | .removeDoubleDual a => .tagged "RemoveDoubleDual" a.toJson
  | .cojoin a => .tagged "Cojoin" a.toJson
  | .derelict a => .tagged "Derelict" a.toJson
  | .copy a a' => .tagged "Copy" (.array [a.toJson, a'.toJson])
  | .zip a b => .tagged "Zip" (.array [a.toJson, b.toJson])
  | .introExists body witness bound => .tagged "IntroExists" (.record
      [("body", body.toJson), ("witness", witness.toJson), ("bound", bound.toJson)])
  | .removeExists x a => .tagged "RemoveExists" (.array [x.toJson, a.toJson])
  | .introForall x a => .tagged "IntroForall" (.array [x.toJson, a.toJson])
  | .removeForall bound body witness => .tagged "RemoveForall" (.record
      [("bound", bound.toJson), ("body", body.toJson), ("witness", witness.toJson)])
  | .andPastExists a x b => .tagged "AndPastExists" (.array [a.toJson, x.toJson, b.toJson])
  | .existsPastAnd a x b => .tagged "ExistsPastAnd" (.array [a.toJson, x.toJson, b.toJson])
  | .substitute l r body way => .tagged "Substitute" (.record
      [("left", l.toJson), ("right", r.toJson), ("body", body.toJson), ("direction", way.toJson)])

def Arrow.toJson : Arrow → Json
  | .identity a => .tagged "Identity" a.toJson
  | .composite f g => .tagged "Composite" (.array [f.toJson, g.toJson])
  | .onLeft k f b => .tagged "OnLeft" (.array [k.toJson, f.toJson, b.toJson])
  | .onRight k a f => .tagged "OnRight" (.array [k.toJson, a.toJson, f.toJson])
  | .onConj k f g => .tagged "OnConj" (.array [k.toJson, f.toJson, g.toJson])
  | .onNot f => .tagged "OnNot" f.toJson
  | .onAlways f => .tagged "OnAlways" f.toJson
  | .onBody q v f => .tagged "OnBody" (.array [q.toJson, v.toJson, f.toJson])
  | .prim p => p.toJson

namespace Decoder

variable {σ : Type} [Notes σ]

def checked (decode : DecoderOver σ Arrow) : DecoderOver σ Arrow := do
  let f ← decode
  match f.fault? with
  | some e => throw (.illTyped e)
  | none => return f

def listed (form : Form) (levels : Nat) (name : String) (items : List Json) :
    DecoderOver σ Primitive := do
  let kind := connective form levels
  let f := formula form levels
  match name with
  | "Commute" => do
    let (k, a, b) ← three kind f f items
    return .commute k a b
  | "AssociateA" => do
    let (k, a, b, c) ← four kind f f f items
    return .associateA k a b c
  | "AssociateB" => do
    let (k, a, b, c) ← four kind f f f items
    return .associateB k a b c
  | "IntroUnit" => do
    let (k, a) ← two kind f items
    return .introUnit k a
  | "RemoveUnit" => do
    let (k, a) ← two kind f items
    return .removeUnit k a
  | "Distribute" => do
    let (a, b, c) ← three f f f items
    return .distribute a b c
  | "Forget" => do
    let (a, b) ← two f f items
    return .forget a b
  | "Admit" => do
    let (a, b) ← two f f items
    return .widen a b
  | "Apply" => do
    let (a, b) ← two f f items
    return .apply a b
  | "Copy" => do
    let (a, a') ← two f f items
    return .copy a a'
  | "Zip" => do
    let (a, b) ← two f f items
    return .zip a b
  | "RemoveExists" => do
    let (x, a) ← two var f items
    return .removeExists x a
  | "IntroForall" => do
    let (x, a) ← two var f items
    return .introForall x a
  | "AndPastExists" => do
    let (a, x, b) ← three f var f items
    return .andPastExists a x b
  | "ExistsPastAnd" => do
    let (a, x, b) ← three f var f items
    return .existsPastAnd a x b
  | _ => malformed

def primitive (form : Form) (levels : Nat) (name : String) (argument : Json) :
    DecoderOver σ Primitive := do
  match name with
  | "IntroDoubleDual" => .introDoubleDual <$> formula form levels argument
  | "RemoveDoubleDual" => .removeDoubleDual <$> formula form levels argument
  | "Cojoin" => .cojoin <$> formula form levels argument
  | "Derelict" => .derelict <$> formula form levels argument
  | "IntroExists" => do
    let fs ← fields form [.body, .witness, .bound] levels argument
    return .introExists (← need fs.body) (← need fs.witness) (← need fs.bound)
  | "RemoveForall" => do
    let fs ← fields form [.bound, .body, .witness] levels argument
    return .removeForall (← need fs.bound) (← need fs.body) (← need fs.witness)
  | "Substitute" => do
    let fs ← fields form [.left, .right, .body, .direction] levels argument
    return .substitute (← need fs.left) (← need fs.right) (← need fs.body) (← need fs.direction)
  | name =>
    match levels, argument with
    | levels + 1, .array items => listed form levels name items
    | _, _ => malformed

/-- The argument of a tag, inside at most `levels` further brackets. An arrow in it is
decoded by `direct`, and by `nested` if it stands in an array; it is checked at once. -/
def arrowArgument (form : Form) (levels : Nat) (direct nested : Json → DecoderOver σ Arrow)
    (name : String) (argument : Json) : DecoderOver σ Arrow :=
  match name, levels, argument with
  | "Identity", levels, argument => .identity <$> formula form levels argument
  | "OnNot", _, argument => .onNot <$> checked (direct argument)
  | "OnAlways", _, argument => .onAlways <$> checked (direct argument)
  | "Composite", _ + 1, .array items => do
    let (f, g) ← two (fun j => checked (nested j)) (fun j => checked (nested j)) items
    return .composite f g
  | "OnLeft", levels + 1, .array items => do
    let (k, f, b) ← three (connective form levels) (fun j => checked (nested j))
      (formula form levels) items
    return .onLeft k f b
  | "OnRight", levels + 1, .array items => do
    let (k, a, f) ← three (connective form levels) (formula form levels)
      (fun j => checked (nested j)) items
    return .onRight k a f
  | "OnConj", levels + 1, .array items => do
    let (k, f, g) ← three (connective form levels) (fun j => checked (nested j))
      (fun j => checked (nested j)) items
    return .onConj k f g
  | "OnBody", levels + 1, .array items => do
    let (q, v, f) ← three (quantifier form levels) var (fun j => checked (nested j)) items
    return .onBody q v f
  | name, levels, argument => .prim <$> primitive form levels name argument

mutual

/-- An arrow inside at most `levels` further brackets, checked below its root. -/
def arrow (form : Form) : Nat → Json → DecoderOver σ Arrow
  | 0, _ => malformed
  | levels + 1, j =>
    argumentOf form (arrowArgument form levels (arrow form levels) (arrowNested form levels)) j

def arrowNested (form : Form) : Nat → Json → DecoderOver σ Arrow
  | 0, _ => malformed
  | levels + 1, j => arrow form levels j

end

def typedArrow (form : Form) (levels : Nat) (j : Json) : DecoderOver σ Arrow :=
  checked (arrow form levels j)

def arrowText (text : String) : DecoderOver σ Arrow := fromText arrow text

end Decoder

end LinearCalculus
