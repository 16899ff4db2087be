import DecisionGraph.Value

namespace DecisionGraph

inductive ValueType where
  | any
  | number
  | string
  | boolean
  | context
  | function
  | collection (element : ValueType)
  | constrained (base : ValueType) (allowed : List Value)

structure DeclaredType where
  name : String
  isCollection : Bool
  check : Value → Except TypeError Bool

/-- Numbers are the same by their size, all other values by equality. -/
def Value.agrees (v w : Value) : Bool :=
  match v.number?, w.number? with
  | some x, some y => x == y
  | _, _ => v == w

namespace ValueType

def name : ValueType → String
  | any => "Any"
  | number => "number"
  | string => "string"
  | boolean => "boolean"
  | context => "context"
  | function => "function"
  | collection element => "list<" ++ element.name ++ ">"
  | constrained base allowed =>
    base.name ++ "[" ++ ", ".intercalate (allowed.map Value.display) ++ "]"

def isCollection : ValueType → Bool
  | collection _ => true
  | constrained base _ => base.isCollection
  | _ => false

/-- Every item fits; the first that does not, or whose check errs, decides. -/
def checkItems (check : Value → Except TypeError Bool) : List Value → Except TypeError Bool
  | [] => .ok true
  | v :: vs =>
    match check v with
    | .ok true => checkItems check vs
    | r => r

def checkAllowed (typeName baseName : String) (check : Value → Except TypeError Bool) :
    List Value → Except TypeError Unit
  | [] => .ok ()
  | v :: vs =>
    match check v with
    | .ok true => checkAllowed typeName baseName check vs
    | .ok false =>
      .error ⟨typeName, "allowed value '" ++ v.display ++ "' is not a " ++ baseName⟩
    | .error e => .error e

/-- Null fits every type. A value that is no list is checked against a collection as its only
item. -/
def check : ValueType → Value → Except TypeError Bool
  | t, v =>
    if v.isNull then .ok true
    else match t with
      | any => .ok true
      | number => .ok v.isNumber
      | string => .ok v.string?.isSome
      | boolean => .ok v.boolean?.isSome
      | context => .ok v.entries?.isSome
      | function => .ok v.function?.isSome
      | collection element =>
        match v with
        | .list items => checkItems element.check items
        | v => element.check v
      | constrained base allowed =>
        match checkAllowed (constrained base allowed).name base.name base.check allowed with
        | .error e => .error e
        | .ok () =>
          match base.check v with
          | .ok true => .ok (allowed.any fun a => a.agrees v)
          | r => r

def same : ValueType → ValueType → Bool
  | any, any => true
  | number, number => true
  | string, string => true
  | boolean, boolean => true
  | context, context => true
  | function, function => true
  | collection a, collection b => a.same b
  | constrained a vs, constrained b ws => a.same b && Value.sameItems vs ws
  | _, _ => false

instance : BEq ValueType := ⟨same⟩

def declared (t : ValueType) : DeclaredType := ⟨t.name, t.isCollection, t.check⟩

end ValueType

end DecisionGraph
