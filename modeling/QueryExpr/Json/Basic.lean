/-!
# JSON values

The values of the data format in which schemas and limits are kept. Integers are apart from the
other numbers: a number with a point or an exponent is no integer here, whatever its value. The
members of an object keep their order, and of two members of one name the first counts.
-/

namespace QueryExpr

/-- A JSON value. -/
inductive Json where
  | null
  | bool (value : Bool)
  /-- A number without point and exponent. -/
  | integer (value : Int)
  /-- Any other number, as it is written. -/
  | real (text : String)
  | string (value : String)
  | array (items : List Json)
  | object (members : List (String × Json))

namespace Json

/-- The value of a string. -/
def string? : Json → Option String
  | string value => some value
  | _ => none

/-- The value of an integer that fits in 64 bits without a sign. -/
def word? : Json → Option UInt64
  | integer (.ofNat n) => if n < UInt64.size then some n.toUInt64 else none
  | _ => none

/-- The items of an array, each of them decoded. -/
def list? {α : Type} (item? : Json → Option α) : Json → Option (List α)
  | array items => items.mapM item?
  | _ => none

/-- The name of a variant that has nothing but its name. It is given as a string, or by an object
whose only member has the name and holds null. -/
def variant? : Json → Option String
  | string name => some name
  | object [(name, null)] => some name
  | _ => none

/-- The members of a record with the given fields. An array gives them in the order of the fields;
it may end early, but it has no items beyond the last field. -/
def members? (fields : List String) : Json → Option (List (String × Json))
  | object members => some members
  | array items => if items.length ≤ fields.length then some (fields.zip items) else none
  | _ => none

/-- A member that has to be there. -/
def required {α : Type} (members : List (String × Json)) (name : String)
    (value? : Json → Option α) : Option α :=
  members.lookup name >>= value?

/-- A member that stands for `default` when it is missing. A member that is there has to decode. -/
def optional {α : Type} (members : List (String × Json)) (name : String) (default : α)
    (value? : Json → Option α) : Option α :=
  match members.lookup name with
  | none => some default
  | some value => value? value

@[simp] theorem string?_string (s : String) : (string s).string? = some s := rfl

@[simp] theorem variant?_string (s : String) : (string s).variant? = some s := rfl

@[simp] theorem members?_object (fields : List String) (members : List (String × Json)) :
    (object members).members? fields = some members := rfl

/-- The integer that a word stands for. -/
def ofWord (w : UInt64) : Json := integer w.toNat

@[simp] theorem word?_ofWord (w : UInt64) : (ofWord w).word? = some w := by
  have h : w.toNat < UInt64.size := w.toNat_lt_size
  simp [ofWord, word?, h]

end Json

end QueryExpr
