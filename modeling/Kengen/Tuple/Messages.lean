import Kengen.Tuple.Strings

/-!
# Tuple keys and conditions as messages

A tuple key carries an object, a relation, a user and an optional condition, and a condition has
a name and an optional context, which is a `structpb.Struct`: a tree of JSON-like values.  The
memory backend compares two contexts by their text form (`String()`), in which all not-a-number
values read the same and everything else differs as its bits do.  `Struct.text` is a normal form
of that comparison: two contexts read the same when their normal forms are equal.

The entries of a struct stand in the order of their keys.
-/

namespace Kengen.Tuple

open Strings

/-! ### Values -/

mutual

/-- `structpb.Value`; a number is the bits of its `float64`. -/
inductive Value where
  | unset
  | null
  | number (bits : UInt64)
  | string (s : Str)
  | bool (b : Bool)
  | struct (fields : Fields)
  | list (values : Values)

/-- The entries of a `structpb.Struct`. -/
inductive Fields where
  | nil
  | cons (key : Str) (value : Value) (rest : Fields)

/-- The values of a `structpb.ListValue`. -/
inductive Values where
  | nil
  | cons (value : Value) (rest : Values)

end

deriving instance DecidableEq for Value, Fields, Values

/-- `structpb.Struct`. -/
abbrev Struct := Fields

mutual

/-- A value with its numbers replaced. -/
def Value.mapNumber (f : UInt64 → UInt64) : Value → Value
  | .number bits => .number (f bits)
  | .struct fields => .struct (fields.mapNumber f)
  | .list values => .list (values.mapNumber f)
  | .unset => .unset
  | .null => .null
  | .string s => .string s
  | .bool b => .bool b

@[inherit_doc Value.mapNumber]
def Fields.mapNumber (f : UInt64 → UInt64) : Fields → Fields
  | .nil => .nil
  | .cons key value rest => .cons key (value.mapNumber f) (rest.mapNumber f)

@[inherit_doc Value.mapNumber]
def Values.mapNumber (f : UInt64 → UInt64) : Values → Values
  | .nil => .nil
  | .cons value rest => .cons (value.mapNumber f) (rest.mapNumber f)

end

/-! ### The text form of contexts -/

/-- Not a number: all exponent bits set and a mantissa that is not zero. -/
def isNaN (bits : UInt64) : Bool :=
  decide (0x7FF0000000000000 < bits.toNat % 2 ^ 63)

/-- What a number reads as in the text form of a message. -/
def numberText (bits : UInt64) : UInt64 := if isNaN bits then 0x7FF8000000000000 else bits

/-- What distinguishes the text form of a context, `String()`. -/
def Struct.text (context : Struct) : Struct := context.mapNumber numberText

/-! ### Conditions and tuple keys -/

/-- `openfgav1.RelationshipCondition`. -/
structure RelationshipCondition where
  name : Str
  context : Option Struct
deriving DecidableEq

/-- `openfgav1.TupleKeyWithoutCondition`: the three fields that identify a tuple. -/
structure TupleKeyWithoutCondition where
  object : Str
  relation : Str
  user : Str
deriving DecidableEq

/-- `openfgav1.TupleKey`. -/
structure TupleKey extends TupleKeyWithoutCondition where
  condition : Option RelationshipCondition
deriving DecidableEq

/-- `GetCondition().GetName()`: the empty name where there is no condition. -/
def TupleKey.conditionName (tk : TupleKey) : Str := (tk.condition.map (·.name)).getD []

/-- `GetCondition().GetContext()`: nil where there is no condition. -/
def TupleKey.conditionContext (tk : TupleKey) : Option Struct := tk.condition.bind (·.context)

/-- `NewRelationshipCondition`. -/
def newRelationshipCondition (name : Str) (context : Option Struct) :
    Option RelationshipCondition :=
  if name = [] then none
  else
    match context with
    | none => some ⟨name, some .nil⟩
    | some context => some ⟨name, some context⟩

/-- `NewTupleKeyWithCondition`. -/
def newTupleKeyWithCondition (object relation user conditionName : Str)
    (context : Option Struct) : TupleKey :=
  { object := object, relation := relation, user := user,
    condition := newRelationshipCondition conditionName context }

/-- `NewTupleKey`. -/
def newTupleKey (object relation user : Str) : TupleKey :=
  { object := object, relation := relation, user := user, condition := none }

/-- `TupleKeyWithoutConditionToTupleKey`. -/
def TupleKeyWithoutCondition.toTupleKey (tk : TupleKeyWithoutCondition) : TupleKey :=
  { toTupleKeyWithoutCondition := tk, condition := none }

/-- A well-formed key: each of its fields passes its check. -/
structure TupleKeyWithoutCondition.WellFormed (tk : TupleKeyWithoutCondition) : Prop where
  object : isValidObject tk.object = true
  relation : isValidRelation tk.relation = true
  user : isValidUser tk.user = true

instance (tk : TupleKeyWithoutCondition) : Decidable tk.WellFormed :=
  decidable_of_iff
    (isValidObject tk.object = true ∧ isValidRelation tk.relation = true
      ∧ isValidUser tk.user = true)
    ⟨fun h => ⟨h.1, h.2.1, h.2.2⟩, fun h => ⟨h.object, h.relation, h.user⟩⟩

end Kengen.Tuple
