import LinearCalculus.Formula.Basic

namespace LinearCalculus

def Connective.text : Connective → String
  | .and => "⊗"
  | .or => "⊕"

def Quantifier.text : Quantifier → String
  | .all => "∀"
  | .ex => "∃"

def unitText (value : Bool) : String := if value then "1" else "0"

namespace Formula

def isRelation : Formula → Bool
  | holds _ _ | identical _ _ => true
  | _ => false

def text : Formula → String
  | holds a b => a.text ++ " ∈ " ++ b.text
  | identical a b => a.text ++ " = " ++ b.text
  | unit value => unitText value
  | not f => "¬" ++ (if f.isRelation then "(" ++ f.text ++ ")" else f.text)
  | always f => "!" ++ (if f.isRelation then "(" ++ f.text ++ ")" else f.text)
  | conj k l r => "(" ++ l.text ++ " " ++ k.text ++ " " ++ r.text ++ ")"
  | quant q v f => "(" ++ q.text ++ v.text ++ ". " ++ f.text ++ ")"

end Formula

end LinearCalculus
