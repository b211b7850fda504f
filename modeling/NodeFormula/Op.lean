import NodeFormula.Catalog

/-!
# Ops

A compiled formula is a list of ops that work on a stack and on a node tree. Calls and repeat zones
carry the ops of their bodies.
-/

namespace NodeFormula

/-- A parameter of a definition, with its default if it has one. -/
structure TypedParam where
  name : String
  type : SocketType
  default : Option Constant
deriving DecidableEq

/-- A stack operation. -/
inductive Op where
  /-- Push a constant, or nothing, which leaves a socket as its node has it. -/
  | pushValue (value : Option Constant)
  /-- Create a node for a free variable and bind the variable to it. -/
  | createVar (name : String)
  /-- Push what a variable is bound to. -/
  | getVar (name : String)
  /-- Pop, and bind a variable to what was popped. -/
  | bindVar (name : String)
  /-- Forget a variable. -/
  | destroyVar (name : String)
  /-- Pop a bundle and push one of its parts. -/
  | getOutput (index : Nat)
  /-- Set an output of the newest node. -/
  | setOutput (index : Nat) (value : Constant)
  /-- Pop into an output of the enclosing definition. -/
  | setFunctionOut (index : Nat)
  /-- Pop a bundle and push all its parts in order. -/
  | splitStruct
  /-- Drop the top of the stack. -/
  | pop
  /-- Pop arguments, create a node they feed, and push its outputs, which have the given types. -/
  | callBuiltin (node : NodeSpec) (outputs : List SocketType)
  /-- Pop arguments, run a body with its inputs bound to them, and push its outputs. -/
  | callFunction (name : String) (inputs : List String) (outputs : Nat) (body : List Op)
  /-- Pop arguments, create a node of a group, which is built from the body once, and push its
  outputs. -/
  | callGroup (name : String) (inputs outputs : List TypedParam) (body : List Op)
  /-- Label the newest node. -/
  | renameNode (name : String)
  /-- Pop a count and run a body in a repeat zone. -/
  | zone (body : List Op)
  /-- Clear the stack. -/
  | endOfStatement

namespace Op

/-- The line of an op in a listing. -/
def line : Op → String
  | pushValue (some v) => "push_value " ++ v.text
  | pushValue none => "push_value none"
  | createVar n => "create_var " ++ n
  | getVar n => "get_var " ++ n
  | bindVar n => "bind_var " ++ n
  | destroyVar n => "destroy_var " ++ n
  | getOutput i => s!"get_output {i}"
  | setOutput i v => s!"set_output {i} " ++ v.text
  | setFunctionOut i => s!"set_function_out {i}"
  | splitStruct => "split_struct"
  | pop => "pop"
  | callBuiltin node _ =>
    "call_builtin " ++ node.key ++
      String.join (node.props.map fun p => " " ++ p.1 ++ "=" ++ p.2.text)
  | callFunction name .. => "call_function " ++ name
  | callGroup name .. => "call_node_group " ++ name
  | renameNode n => "rename_node " ++ n
  | zone _ => "repeat"
  | endOfStatement => "end_of_statement"

/-- A line of a listing, two spaces further in for each level of bodies it is in. -/
def indent (depth : Nat) (s : String) : String :=
  String.ofList (List.replicate (2 * depth) ' ') ++ s ++ "\n"

mutual

/-- The lines of an op and of its body. -/
def lines (depth : Nat) : Op → List String
  | callFunction name inputs outputs body =>
    indent depth (line (callFunction name inputs outputs body)) :: bodyLines (depth + 1) body
  | callGroup name inputs outputs body =>
    indent depth (line (callGroup name inputs outputs body)) :: bodyLines (depth + 1) body
  | zone body => indent depth (line (zone body)) :: bodyLines (depth + 1) body
  | op => [indent depth (line op)]

/-- The lines of ops. -/
def bodyLines (depth : Nat) : List Op → List String
  | [] => []
  | op :: rest => lines depth op ++ bodyLines depth rest

end

/-- One line for each op, bodies indented. -/
def listing (ops : List Op) : String := String.join (bodyLines 0 ops)

end Op

end NodeFormula
