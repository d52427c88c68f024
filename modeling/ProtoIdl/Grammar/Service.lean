import ProtoIdl.Grammar.Field
import ProtoIdl.Schema.Service

/-!
# Services

A service has methods and options.  A method lists its parameters, each with a type
and perhaps a name, and one result; `stream` marks a side as streaming.
-/

namespace ProtoIdl
namespace Grammar

open ProtoIdl.Parser

/-- Read the type of a parameter or of a result, and whether it is repeated. -/
def rpcType (context : String) : Parser (FieldType × Bool) := do
  if ← eat Keyword.map.text then
    let type ← mapTypeRest
    return (type, false)
  else
    let repeated ← eat Keyword.repeated.text
    let type ← word "type" context
    return (.ofName type, repeated)

/-- The parameters read so far, and whether one of them is marked as a stream. -/
structure RpcInputs where
  streaming : Bool
  arguments : List RpcArgument

/-- Read the name of a parameter, which may be absent. -/
def parameterName : Parser (Option String) := do
  let ahead ← peek
  if ahead = some "," ∨ ahead = some ")" then return none
  else
    let name ← word "parameter name" "rpc parameters"
    return some name

/-- Read one parameter, with the comments around its parts. -/
def rpcParameter (inputs : RpcInputs) : Parser RpcInputs := do
  let _ ← takeComments
  let stream ← eat Keyword.stream.text
  let (type, repeated) ← rpcType "rpc parameters"
  let _ ← takeComments
  let name ← parameterName
  let _ ← takeComments
  return ⟨inputs.streaming || stream, inputs.arguments ++ [⟨name, type, repeated⟩]⟩

/-- Read the parameters of a method after the opening parenthesis, with the closing
one. -/
def rpcParameters : Parser RpcInputs := do
  let _ ← takeComments
  if ← eat ")" then return ⟨false, []⟩
  else commaList ")" "rpc parameters" rpcParameter ⟨false, []⟩

/-- Read a member of the body of a method, of which the first token has been taken.
Only options are admitted. -/
def rpcBodyMember (options : OptionMap) (head : List String × Token) : Parser OptionMap :=
  if head.2 = ";" then pure options
  else
    match Keyword.ofToken? head.2 with
    | some .option => bindOptionRest options
    | _ => rejectLast "rpc options"

/-- Read the end of a method: a semicolon, or a body of options and a semicolon if one
follows. -/
def rpcEnd : Parser OptionMap := do
  if ← eat ";" then return ∅
  else
    expect Token.openBrace "rpc"
    let options ← loop (memberHead "rpc") rpcBodyMember ∅
    let _ ← eat ";"
    return options

/-- Read what follows the keyword of a method. -/
def rpcRest (comments : List String) : Parser RpcMethod := do
  let name ← word "method name" "rpc"
  expect "(" "rpc"
  let inputs ← rpcParameters
  expect Keyword.returns.text "rpc"
  expect "(" "rpc"
  let stream ← eat Keyword.stream.text
  let (type, repeated) ← rpcType "rpc"
  expect ")" "rpc"
  let options ← rpcEnd
  return ⟨name, inputs.arguments, ⟨none, type, repeated⟩, inputs.streaming, stream, options,
    comments⟩

/-- Read a member of a service, of which the comments and the first token have been
taken. -/
def serviceMember (service : Service) (head : List String × Token) : Parser Service :=
  if head.2 = ";" then pure service
  else
    match Keyword.ofToken? head.2 with
    | some .option => do
        let options ← bindOptionRest service.options
        return { service with options := options }
    | some .function | some .rpc => do
        let method ← rpcRest head.1
        return { service with methods := service.methods ++ [method] }
    | _ => rejectLast "service"

/-- Read what follows the keyword of a service, with a semicolon if one follows. -/
def serviceRest : Parser Service := do
  let name ← word "service name" "service"
  expect Token.openBrace "service"
  let service ← loop (memberHead "service") serviceMember (.new name)
  let _ ← eat ";"
  return service

/-- Read a service. -/
def service : Parser Service := do
  expect Keyword.service.text "service"
  serviceRest

end Grammar
end ProtoIdl
