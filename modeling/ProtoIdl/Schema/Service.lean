import ProtoIdl.Schema.Field

/-!
# Services

A service lists methods.  A method has parameters and one result, and either side may
be a stream.
-/

namespace ProtoIdl

/-- A parameter or the result of a method. -/
structure RpcArgument where
  /-- Results, and parameters that are given by type only, have no name. -/
  name : Option String
  type : FieldType
  repeated : Bool
  deriving DecidableEq, Repr

/-- A method of a service. -/
structure RpcMethod where
  name : String
  inputs : List RpcArgument
  output : RpcArgument
  clientStreaming : Bool
  serverStreaming : Bool
  options : OptionMap
  comments : List String

/-- A service declaration. -/
structure Service where
  name : String
  methods : List RpcMethod
  options : OptionMap
  comments : List String

namespace Service

/-- A service without members. -/
def new (name : String) : Service :=
  ⟨name, [], ∅, []⟩

/-- The method of a given name. -/
def method? (service : Service) (name : String) : Option RpcMethod :=
  service.methods.find? fun method => method.name == name

end Service

end ProtoIdl
