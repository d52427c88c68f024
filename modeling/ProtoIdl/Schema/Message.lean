import ProtoIdl.Schema.Enum
import ProtoIdl.Schema.Field

/-!
# Messages

A message lists what is declared inside it, each kind in source order.  Messages nest
in messages and, through `extend` blocks, in those too.
-/

namespace ProtoIdl

mutual

/-- A message declaration. -/
structure Message where
  name : String
  messages : List Message
  enums : List EnumDecl
  fields : List Field
  extendBlocks : List ExtendBlock
  extensions : List ExtensionRange
  reserved : List Reserved
  options : OptionMap
  comments : List String

/-- A block that adds fields to the message it names.  What the block declares is
held in a message of its own. -/
structure ExtendBlock where
  target : String
  body : Message

end

namespace Message

/-- A message without members. -/
def new (name : String) : Message :=
  ⟨name, [], [], [], [], [], [], ∅, []⟩

/-- The field of a given name. -/
def field? (message : Message) (name : String) : Option Field :=
  message.fields.find? fun field => field.name == name

/-- The field of a given number. -/
def fieldByTag? (message : Message) (tag : Nat) : Option Field :=
  message.fields.find? fun field => field.tag == tag

/-- The message of a given name declared directly inside. -/
def message? (message : Message) (name : String) : Option Message :=
  message.messages.find? fun inner => inner.name == name

/-- Whether a number is open to `extend` blocks. -/
def acceptsExtension (message : Message) (tag : Nat) : Bool :=
  message.extensions.any fun range => range.contains tag

end Message

end ProtoIdl
