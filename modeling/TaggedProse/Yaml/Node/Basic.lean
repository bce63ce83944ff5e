/-!
Nodes of a YAML document. An anchor is known by a number: how many other names of anchors came
before its name, so a name that is given again takes a new number, which the next new name takes
over. An alias stands for the last node of its number.
-/
namespace TaggedProse.Yaml

structure Properties where
  anchor : Option Nat := none
  /-- The tag's octets, as the characters of the same codes. -/
  tag : Option String := none
  deriving DecidableEq, Repr

inductive Node where
  /-- A scalar; `plain` if it stands without quotes and is no block. -/
  | scalar (properties : Properties) (plain : Bool) (text : String)
  | sequence (properties : Properties) (items : List Node)
  | mapping (properties : Properties) (entries : List (Node × Node))
  | alias (target : Nat)

namespace Node

def blank (p : Properties) : Node := .scalar p true ""

def properties : Node → Properties
  | .scalar p _ _ | .sequence p _ | .mapping p _ => p
  | .alias _ => {}

mutual

/-- The node and all nodes in it, in the order in which they begin. -/
def nodes : Node → List Node
  | .sequence p items => .sequence p items :: nodesOfItems items
  | .mapping p entries => .mapping p entries :: nodesOfEntries entries
  | n => [n]

def nodesOfItems : List Node → List Node
  | [] => []
  | n :: ns => n.nodes ++ nodesOfItems ns

def nodesOfEntries : List (Node × Node) → List Node
  | [] => []
  | (k, v) :: es => k.nodes ++ v.nodes ++ nodesOfEntries es

end

/-- The nodes that aliases stand for, by number; the last of a number comes first. -/
def anchored (n : Node) : List (Nat × Node) :=
  n.nodes.reverse.filterMap fun m => m.properties.anchor.map (·, m)

/-- How often a node begins or ends, where one without parts does both at once. -/
def events (n : Node) : Nat :=
  n.nodes.foldl (fun count m => count + match m with
    | .sequence .. | .mapping .. => 2
    | _ => 1) 0

end Node

end TaggedProse.Yaml
