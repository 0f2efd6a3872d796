import DeadLanes.Func

namespace DeadLanes

-- Control flow between blocks, read off the last instruction of each. Nothing
-- is listed twice; nodes and edges stand in the order of first mention.
structure FlowGraph where
  nodes : List Label
  edges : List (Label × Label)

def exits (block : List Placed) : List Label :=
  match block.getLast? with
  | some p => p.inst.successors
  | none => []

def Func.exitEdges (f : Func) : List (Label × Label) :=
  (f.labels.zip f.blocks).flatMap fun (b, block) => (exits block).map (b, ·)

-- A block named as a target is a node even if the function does not have it.
def Func.flowGraph (f : Func) : FlowGraph :=
  { nodes := (f.labels ++ f.exitEdges.map (·.2)).eraseDups
    edges := f.exitEdges.eraseDups }

namespace FlowGraph

def preds (g : FlowGraph) (b : Label) : List Label := (g.edges.filter (·.2 = b)).map (·.1)

def sortedPreds (g : FlowGraph) (b : Label) : List Label :=
  (g.preds b).mergeSort (·.index ≤ ·.index)

def sorted (g : FlowGraph) : List Label × List (Label × Label) :=
  (g.nodes.mergeSort (·.index ≤ ·.index),
    g.edges.mergeSort fun a b => a.1.index < b.1.index || (a.1.index = b.1.index && a.2.index ≤ b.2.index))

def position (g : FlowGraph) (b : Label) : Nat := g.nodes.idxOf b

def dot (g : FlowGraph) : String :=
  let node (b : Label) := "    " ++ (g.position b).repr ++ " [ label = \"" ++ b.text ++ "\" ]\n"
  let edge (e : Label × Label) :=
    "    " ++ (g.position e.1).repr ++ " -> " ++ (g.position e.2).repr ++ " [ ]\n"
  "digraph \x7b\n" ++ String.join (g.nodes.map node) ++ String.join (g.edges.map edge) ++ "\x7d\n"

end FlowGraph

end DeadLanes
