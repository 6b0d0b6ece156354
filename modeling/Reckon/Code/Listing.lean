import Reckon.Code.Basic
import Reckon.Numbered

/-!
# Listings

A listing shows a procedure in the textual form of the code generator: the
slots, signatures and functions, and then the blocks in order.  Where an
operand is a constant, a comment repeats it.  Arithmetic and comparisons name
the type of their operands only if the first of them comes from another block.
Addresses of cells differ from run to run, so they are not shown.
-/

namespace Reckon.Code

/-- What a listing needs to know about a value. -/
structure Origin where
  /-- The block that defines the value. -/
  block : BlockId
  /-- The text of the value if it is a constant. -/
  constant? : Option String
deriving Repr, DecidableEq

/-- What stands for the address of a cell. -/
def cellText : String := "CELL"

/-- The text of a constant. -/
def Operation.constant? : Operation → Option String
  | number value => some (Binary64.constant value)
  | cell _ => some cellText
  | _ => none

/-- The origins of the values of a block. -/
def Block.origins (block : Block) (known : Numbered Origin) : Numbered Origin :=
  let known := block.params.foldl (fun known v => known.set v ⟨block.id, none⟩) known
  block.body.foldl (fun known instruction =>
    match instruction with
    | .define result operation => known.set result ⟨block.id, operation.constant?⟩
    | .storeSlot _ _ => known) known

/-- The origins of the values of a procedure. -/
def Procedure.origins (p : Procedure) : Numbered Origin :=
  p.blocks.foldl (fun known block => block.origins known) .empty

/-- Items with a comma and a space between them. -/
def commaList (items : List String) : String := ", ".intercalate items

/-- A value. -/
def valueText (v : ValueId) : String := s!"v{v}"

/-- Some values with commas between them. -/
def valueList (vs : List ValueId) : String := commaList (vs.map valueText)

/-- The parameters and the result of a signature. -/
def signatureText (arity : Nat) : String :=
  let params := commaList (List.replicate arity "f64")
  s!"({params}) -> f64 system_v"

/-- The type after an operation on numbers, where it has to be named. -/
def typeSuffix (known : Numbered Origin) (block : BlockId) (first : ValueId) : String :=
  if (known.get? first).map Origin.block = some block then "" else ".f64"

/-- The name of an arithmetic operation. -/
def Arithmetic.text : Arithmetic → String
  | add => "fadd"
  | sub => "fsub"
  | mul => "fmul"

/-- The condition code of a comparison. -/
def Comparison.text : Comparison → String
  | less => "ult"
  | distinct => "one"

/-- An operation. -/
def Operation.text (known : Numbered Origin) (block : BlockId) : Operation → String
  | number value => s!"f64const {Binary64.constant value}"
  | arithmetic op left right =>
    s!"{op.text}{typeSuffix known block left} {valueList [left, right]}"
  | compare op left right =>
    s!"fcmp{typeSuffix known block left} {op.text} {valueList [left, right]}"
  | extend flag => s!"uextend.i64 {valueText flag}"
  | convert word => s!"fcvt_from_uint.f64 {valueText word}"
  | loadSlot slot => s!"stack_load.f64 ss{slot}"
  | cell _ => s!"iconst.i64 {cellText}"
  | loadCell address => s!"load.i64 {valueText address}"
  | call external args => s!"call fn{external}({valueList args})"
  | callThrough signature code args =>
    s!"call_indirect sig{signature}, {valueText code}({valueList args})"

/-- An instruction. -/
def Instruction.text (known : Numbered Origin) (block : BlockId) : Instruction → String
  | define result operation => s!"{valueText result} = {operation.text known block}"
  | storeSlot value slot => s!"stack_store {valueText value}, ss{slot}"

/-- A block with the values that a jump passes to it. -/
def targetText (target : BlockId) (args : List ValueId) : String :=
  if args.isEmpty then s!"block{target}" else s!"block{target}({valueList args})"

/-- A transfer. -/
def Transfer.text : Transfer → String
  | jump target args => s!"jump {targetText target args}"
  | branch condition whenTrue whenFalse =>
    s!"brif {valueText condition}, {targetText whenTrue []}, {targetText whenFalse []}"
  | leave value => s!"return {valueText value}"

/-- The comment that repeats the constants among some operands. -/
def constantComment (known : Numbered Origin) (operands : List ValueId) : String :=
  let constants := operands.filterMap fun v =>
    ((known.get? v).bind Origin.constant?).map fun text => s!"{valueText v} = {text}"
  if constants.isEmpty then "" else s!"  ; {commaList constants}"

/-- A line of a block. -/
def bodyLine (known : Numbered Origin) (text : String) (operands : List ValueId) : String :=
  s!"    {text}{constantComment known operands}"

/-- The line that begins a block. -/
def Block.header (block : Block) : String :=
  let params := commaList (block.params.map fun v => s!"{valueText v}: f64")
  if block.params.isEmpty then s!"block{block.id}:" else s!"block{block.id}({params}):"

/-- The lines of a block. -/
def Block.lines (known : Numbered Origin) (block : Block) : List String :=
  block.header
    :: (block.body.map fun i => bodyLine known (i.text known block.id) i.operands)
    ++ [bodyLine known block.transfer.text block.transfer.operands]

/-- Texts with their numbers. -/
def numbered {α : Type} (text : Nat → α → String) (items : List α) : List String :=
  items.zipIdx.map fun (item, n) => text n item

/-- The lines before the first block. -/
def Procedure.preamble (p : Procedure) : List String :=
  (List.range p.slots).map (fun n => s!"    ss{n} = explicit_slot 8, align = 8")
    ++ numbered (fun n arity => s!"    sig{n} = {signatureText arity}") p.signatures
    ++ numbered (fun n external =>
        let local? := if external.colocated then "colocated " else ""
        s!"    fn{n} = {local?}u0:{external.declaration} sig{external.signature}")
      p.externals

/-- Groups of lines with an empty line between them. -/
def separate : List (List String) → List String
  | [] => []
  | [group] => group
  | group :: groups => group ++ "" :: separate groups

/-- The lines of a procedure. -/
def Procedure.lines (p : Procedure) : List String :=
  let known := p.origins
  let groups := p.preamble :: p.blocks.map (Block.lines known)
  s!"function %{p.symbol}{signatureText p.arity} \x7b"
    :: separate (groups.filter fun group => !group.isEmpty)
    ++ ["\x7d"]

/-- The listing of a procedure: its lines, each with its line end. -/
def Procedure.listing (p : Procedure) : String :=
  String.join (p.lines.map fun line => line ++ "\n")

end Reckon.Code
