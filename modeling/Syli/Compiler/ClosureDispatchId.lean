import Syli.Compiler.Oir
import Syli.Foundation.PathNumbering
import Syli.Foundation.NativeInt

/-! `closure_dispatch_id.ml`: the numbers of the paths of the closure graph. -/
namespace Syli.Compiler.ClosureDispatchId

open Foundation

structure Graph where
  rootIds : List Id
  edges : IntMap (List Id)
  edges_nodup : (edges.map Prod.fst).Nodup

def Graph.children (g : Graph) (v : Id) : List Id := (g.edges.findOpt v).getD []

def addChild (count : IntMap Int → Id → Option (Int × IntMap Int)) (acc : Int × IntMap Int)
    (child : Id) : Option (Int × IntMap Int) := do
  let r ← count acc.2 child
  return (addInt acc.1 r.1, r.2)

/-- The inner function of `compute_n`, to a depth of `fuel`. -/
def countFrom (g : Graph) : Nat → IntMap Int → Id → Option (Int × IntMap Int)
  | 0, _, _ => none
  | fuel + 1, memo, v =>
    match memo.findOpt v with
    | some count => some (count, memo)
    | none => do
      let r ← match g.children v with
        | [] => some (1, memo)
        | children => children.foldlM (addChild (countFrom g fuel)) (0, memo)
      return (r.1, r.2.add v r.1)

def computeN (g : Graph) : Option (IntMap Int) :=
  g.rootIds.foldlM (fun memo root => Prod.snd <$> countFrom g (g.edges.length + 1) memo root) []

abbrev Offsets := AssocMap (Id × Id) Int

def addOffset (npaths : IntMap Int) (src : Id) (acc : Int × Offsets) (child : Id) : Int × Offsets :=
  (addInt acc.1 ((npaths.findOpt child).getD 0), acc.2.add (src, child) acc.1)

def computeOffsets (g : Graph) (npaths : IntMap Int) : Offsets :=
  g.edges.foldl (fun offsets e => (e.2.foldl (addOffset npaths e.1) (0, offsets)).2) []

def computeDispatchIds (g : Graph) : Option Offsets := computeOffsets g <$> computeN g

def edgeWeight (t : Offsets) (src target : Id) : Int := (t.findOpt (src, target)).getD 0

/-- The sum of the weights along a path. -/
def pathSum (t : Offsets) (acc : Int) : List Id → Int
  | u :: c :: p => pathSum t (addInt acc (edgeWeight t u c)) (c :: p)
  | _ => acc

end Syli.Compiler.ClosureDispatchId
