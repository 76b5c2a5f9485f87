import Calculator.Evaluation
import Calculator.Proofs.Machine

set_option autoImplicit false

namespace Calculator

namespace Environment

def binding? (env : Environment) (name : Char) : Option Float := env.values[name]?

theorem lookup_eq_binding? (env : Environment) (name : Char) :
    env.lookup name = (env.binding? name).getD 0 := Std.TreeMap.getD_eq_getD_getElem?

theorem binding?_empty (name : Char) : empty.binding? name = none := rfl

theorem binding?_insert (env : Environment) (name other : Char) (value : Float) :
    (env.insert name value).binding? other =
      if name = other then some value else env.binding? other := by
  simp only [insert, binding?, Std.TreeMap.getElem?_insert, Std.LawfulEqCmp.compare_eq_iff_eq]

theorem binding?_insertAll (bindings : List (Char × Float)) (env : Environment) (name : Char) :
    (bindings.foldl (fun env (name, value) => env.insert name value) env).binding? name =
      (lastOf name bindings).or (env.binding? name) := by
  induction bindings generalizing env with
  | nil => rfl
  | cons entry rest ih =>
    obtain ⟨other, value⟩ := entry
    rw [List.foldl_cons, ih, binding?_insert, lastOf, Option.or_assoc, ite_some_or]

theorem binding?_ofList (bindings : List (Char × Float)) (name : Char) :
    (ofList bindings).binding? name = lastOf name bindings := by
  rw [ofList, binding?_insertAll, binding?_empty, Option.or_none]

theorem binding?_initial (name : Char) :
    initial.binding? name = (lastOf name initialBindings).map Float.ofNat := by
  rw [initial, binding?_ofList, lastOf_map]

end Environment

/-- The name that a leaf reads. -/
def Token.names (t : Token) : List Char :=
  match t.kind, t.lexeme.toList with
  | .identifier, [name] => [name]
  | _, _ => []

theorem Token.value_congr {t : Token} {env env' : Environment}
    (agree : ∀ name ∈ t.names, env.lookup name = env'.lookup name) :
    t.value env = t.value env' := by
  cases kind : t.kind with
  | identifier =>
    simp only [value, kind]
    split
    · rename_i name alone
      rw [agree name (by simp [names, kind, alone])]
    · rfl
  | number | plus | minus | star | slash | lparen | rparen | eof => simp only [value, kind]

namespace Tree

def names : Tree → List Char
  | leaf t => t.names
  | node l _ r => l.names ++ r.names

theorem eval_congr {t : Tree} {env env' : Environment}
    (agree : ∀ name ∈ t.names, env.lookup name = env'.lookup name) : t.eval env = t.eval env' := by
  induction t with
  | leaf t => exact Token.value_congr agree
  | node l op r left right =>
    have inLeft := left fun name member => agree name (List.mem_append_left _ member)
    have inRight := right fun name member => agree name (List.mem_append_right _ member)
    rw [eval, eval, inLeft, inRight]

end Tree

end Calculator
