import TensorGraph.Attribute

/-!
# The catalog of operators

Builds operators from a name and attributes. A name that is not in the catalog is reported first,
then the attributes in the order in which the operator reads them.
-/

namespace TensorGraph

/-- Why the catalog cannot build an operator. -/
inductive CatalogError (α : Type)
  | unknown (name : String)
  | missingAttribute (op attr : String)
  /-- The attribute has the wrong form, or a value out of range. -/
  | badAttribute (op attr : String) (value : Attribute α)

/-- The wording of a catalog error. There is none about an attribute that is a graph. -/
def CatalogError.message? {α : Type} [Scalar α] : CatalogError α → Option String
  | .unknown name => some s!"unknown operator `{name}`"
  | .missingAttribute op attr => some s!"`{op}` is missing attribute `{attr}`"
  | .badAttribute op attr value =>
    value.text?.map fun text => s!"`{op}` attribute `{attr}` has the wrong type or value: {text}"

namespace Catalog

variable {α : Type}

abbrev Reader (α : Type) := Except (CatalogError α)

def required (op : String) (attributes : Attributes α) (attr : String) :
    Reader α (Attribute α) :=
  match attributes.lookup attr with
  | some value => .ok value
  | none => .error (.missingAttribute op attr)

def int (op : String) (attributes : Attributes α) (attr : String) : Reader α Int := do
  match ← required op attributes attr with
  | .int value => return value
  | value => .error (.badAttribute op attr value)

def count (op : String) (attributes : Attributes α) (attr : String) : Reader α Nat := do
  let value ← int op attributes attr
  if value < 0 then .error (.badAttribute op attr (.int value)) else return value.toNat

/-- An integer, or a default when the attribute is not given. -/
def intOr (op : String) (attributes : Attributes α) (attr : String) (default : Int) :
    Reader α Int :=
  if (attributes.lookup attr).isSome then int op attributes attr else .ok default

/-- A list of integers. A single integer stands for the list of it. -/
def ints (op : String) (attributes : Attributes α) (attr : String) : Reader α (List Int) := do
  match ← required op attributes attr with
  | .ints values => return values
  | .int value => return [value]
  | value => .error (.badAttribute op attr value)

/-- A list of integers that are not negative, empty when the attribute is not given. -/
def indices (op : String) (attributes : Attributes α) (attr : String) :
    Reader α (List Nat) := do
  let values ←
    if (attributes.lookup attr).isSome then ints op attributes attr else pure []
  if values.any (· < 0) then .error (.badAttribute op attr (.ints values))
  else return values.map Int.toNat

/-- The operators that need no attributes. -/
def plain : List (String × Operator α) :=
  [("identity", .identity), ("contiguous", .contiguous), ("dot", .dot),
   ("pointwise", .pointwise),
   ("neg", .unary .neg), ("exp", .unary .exp), ("relu", .unary .relu), ("sqrt", .unary .sqrt),
   ("recip", .unary .recip),
   ("add", .binary .add), ("sub", .binary .sub), ("mul", .binary .mul), ("div", .binary .div),
   ("max", .binary .max)]

abbrev Builder (α : Type) := Attributes α → Reader α (Operator α)

/-- A slice reads the axes before the bounds. -/
def buildSlice : Builder α := fun a => do
  let axes ← indices "slice" a "axes"
  let starts ← ints "slice" a "starts"
  let ends ← ints "slice" a "ends"
  return .slice axes starts ends

/-- A loop reads the iterations before the counts of its inputs. -/
def buildScan : Builder α := fun a => do
  let iterations ← count "scan" a "iterations"
  let scanInputs ← count "scan" a "num_scan_inputs"
  let stateVars ← count "scan" a "num_state_vars"
  return .scan iterations scanInputs stateVars

/-- The operators that read attributes. -/
def attributed : List (String × Builder α) :=
  [("transpose", fun a => .transpose <$> indices "transpose" a "permutation"),
   ("reshape", fun a => .reshape <$> ints "reshape" a "dims"),
   ("squeeze", fun a => .squeeze <$> indices "squeeze" a "axes"),
   ("unsqueeze", fun a => .unsqueeze <$> indices "unsqueeze" a "axes"),
   ("slice", buildSlice),
   ("multibroadcast", fun a => .broadcast <$> indices "multibroadcast" a "out_lens"),
   ("gather", fun a => .gather <$> intOr "gather" a "axis" 0),
   ("concat", fun a => .concat <$> intOr "concat" a "axis" 0),
   ("reduce_sum", fun a => .reduceSum <$> indices "reduce_sum" a "axes"),
   ("scan", buildScan),
   ("get_tuple_elem", fun a => .tupleElem <$> count "get_tuple_elem" a "index"),
   ("fused_concat", fun a => .fusedConcat <$> intOr "fused_concat" a "axis" 0)]

def build (name : String) (attributes : Attributes α) :
    Except (CatalogError α) (Operator α) :=
  match (plain : List (String × Operator α)).lookup name with
  | some op => .ok op
  | none =>
    match (attributed : List (String × Builder α)).lookup name with
    | some builder => builder attributes
    | none => .error (.unknown name)

/-- All names in the catalog, in ascending order. -/
def names : List String :=
  let all := (plain : List (String × Operator Unit)).map (·.1) ++
    (attributed : List (String × Builder Unit)).map (·.1)
  sorted (fun a b => !decide (b < a)) all

end Catalog

end TensorGraph
