import Formula.Sequence.Ops

/-!
The methods of lists and maps. A method is found by name, its arguments are counted and only
then looked at.
-/
namespace Formula

variable {H W : Type}

namespace Method

/-- The argument at an index as a function that can be called with `arity` arguments. -/
def closureArg (name : String) (args : List (Value H)) (index arity : Nat) :
    Except CollectionError (Function H) :=
  match args[index]? with
  | some (.closure f) =>
    if f.arity.accepts arity then .ok f else .error (.closureArity name (index + 1) arity)
  | _ => .error (.notAClosure name (index + 1))

def stringArg (name : String) (args : List (Value H)) (index : Nat) :
    Except CollectionError String :=
  match args[index]? with
  | some (.str s) => .ok s
  | _ => .error (.invalidType name "a string")

end Method

/-- The methods of lists. -/
inductive ListMethod where
  | accept | map | reduce | replace | combine | indexOf | groupByString | groupByInt | order
  | reverse | append | iir | visit | top | number | size | first | string
  deriving DecidableEq, Repr

namespace ListMethod

def name : ListMethod → String
  | accept => "accept"
  | map => "map"
  | reduce => "reduce"
  | replace => "replace"
  | combine => "combine"
  | indexOf => "indexOf"
  | groupByString => "groupByString"
  | groupByInt => "groupByInt"
  | order => "order"
  | reverse => "reverse"
  | append => "append"
  | iir => "iir"
  | visit => "visit"
  | top => "top"
  | number => "number"
  | size => "size"
  | first => "first"
  | string => "string"

def all : List ListMethod :=
  [accept, map, reduce, replace, combine, indexOf, groupByString, groupByInt, order, reverse,
    append, iir, visit, top, number, size, first, string]

def find? (name : String) : Option ListMethod := all.find? (·.name == name)

/-- Number of arguments beside the list. -/
def argCount : ListMethod → Nat
  | reverse | size | first | string => 0
  | iir | visit => 2
  | _ => 1

/-- The closure at an index of the arguments. -/
def closure (method : ListMethod) (args : List (Value H)) (index arity : Nat) :
    Run H W CollectionError (Function H) :=
  .ofExcept (Method.closureArg method.name args index arity)

/-- Runs a method on as many arguments as it takes. -/
def run (m : Machine H W) (ref : ListRef) (args : List (Value H)) (method : ListMethod) :
    Run H W CollectionError (Value H) :=
  match method with
  | accept => do Store.newLazy (.accept ref (← method.closure args 0 1))
  | map => do Store.newLazy (.map ref (← method.closure args 0 1))
  | reduce => do Sequence.reduce m ref (← method.closure args 0 2)
  | replace => do m.apply (← method.closure args 0 1) [.list ref]
  | combine => do Store.newLazy (.combine ref (← method.closure args 0 2))
  | indexOf => do return .int (← Sequence.indexOf m ref (args.headD default))
  | groupByString => do Sequence.groupByString m ref (← method.closure args 0 1)
  | groupByInt => do Sequence.groupByInt m ref (← method.closure args 0 1)
  | order => do Sequence.order m ref (← method.closure args 0 2)
  | reverse => Sequence.reverse m ref
  | append => Sequence.append m ref (args.headD default)
  | iir => do
    let initial ← method.closure args 0 1
    Store.newLazy (.iir ref initial (← method.closure args 1 2))
  | visit => do Sequence.visit m ref (args.headD default) (← method.closure args 1 2)
  | top =>
    match args with
    | .int n :: _ => Store.newLazy (.top ref n.toInt.toNat)
    | _ => Run.fault (.invalidType "top" "an int")
  | number => do Store.newLazy (.number ref (← method.closure args 0 2))
  | size => do return .int (Int64.ofNat (← Sequence.size m ref))
  | first => Sequence.first m ref
  | string => do return .str (← Sequence.text m ref)

end ListMethod

/-- The methods of maps. -/
inductive MapMethod where
  | accept | map | replace | list | size | isAvail | get | put
  deriving DecidableEq, Repr

namespace MapMethod

def name : MapMethod → String
  | accept => "accept"
  | map => "map"
  | replace => "replace"
  | list => "list"
  | size => "size"
  | isAvail => "isAvail"
  | get => "get"
  | put => "put"

def all : List MapMethod := [accept, map, replace, list, size, isAvail, get, put]

def find? (name : String) : Option MapMethod := all.find? (·.name == name)

/-- Number of arguments beside the map. -/
def argCount : MapMethod → Nat
  | list | size => 0
  | put => 2
  | _ => 1

/-- The entries that a predicate on key and value accepts. -/
def acceptEntries (m : Machine H W) (predicate : Function H) : List (String × Value H) →
    Run H W CollectionError (List (String × Value H))
  | [] => pure []
  | (key, v) :: rest => do
    match ← m.apply predicate [.str key, v] with
    | .bool true => return (key, v) :: (← acceptEntries m predicate rest)
    | .bool false => acceptEntries m predicate rest
    | _ => Run.fault (.notABool "accept")

def mapEntries (m : Machine H W) (f : Function H) (entries : List (String × Value H)) :
    Run H W CollectionError (List (String × Value H)) :=
  entries.mapM fun (key, v) => return (key, ← m.apply f [.str key, v])

def closure (method : MapMethod) (args : List (Value H)) (arity : Nat) :
    Run H W CollectionError (Function H) :=
  .ofExcept (Method.closureArg method.name args 0 arity)

def key (method : MapMethod) (args : List (Value H)) : Run H W CollectionError String :=
  .ofExcept (Method.stringArg method.name args 0)

/-- Runs a method on as many arguments as it takes. -/
def run (m : Machine H W) (id : Identity) (d : Dict (Value H)) (args : List (Value H))
    (method : MapMethod) : Run H W CollectionError (Value H) :=
  match method with
  | accept => do
    Store.newMap (.ofList (← acceptEntries m (← method.closure args 2) d.entries))
  | map => do Store.newMap (.ofList (← mapEntries m (← method.closure args 2) d.entries))
  | replace => do m.apply (← method.closure args 1) [.map id d]
  | list => Store.newLazy (.entries d)
  | size => pure (.int (Int64.ofNat d.size))
  | isAvail => do return .bool (d.contains (← method.key args))
  | get => do
    let key ← method.key args
    match d.get? key with
    | some v => pure v
    | none => Run.fault (.keyNotFound key)
  | put => do Store.newMap (d.put (← method.key args) ((args.drop 1).headD default))

end MapMethod

namespace Method

/-- Finds a method and checks the number of arguments. -/
def resolve {M : Type} (kind name : String) (argCount : M → Nat) (args : Nat) :
    Option M → Except CollectionError M
  | none => .error (.methodNotFound kind name)
  | some method =>
    if argCount method = args then .ok method
    else .error (.arityMismatch name (argCount method) args)

/-- Calls a method of a value. -/
def call (m : Machine H W) (v : Value H) (name : String) (args : List (Value H)) :
    Run H W CollectionError (Value H) :=
  match v with
  | .list ref => do
    let method ← .ofExcept
      (resolve "list" name ListMethod.argCount args.length (ListMethod.find? name))
    method.run m ref args
  | .map id d => do
    let method ← .ofExcept
      (resolve "map" name MapMethod.argCount args.length (MapMethod.find? name))
    method.run m id d args
  | v => Run.fault (.methodNotFound v.kind name)

end Method

end Formula
