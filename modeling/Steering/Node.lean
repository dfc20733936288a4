import Steering.Service
import Steering.Text.Quoted

/-!
# `Steering.Node` — instances that calls can be steered to

A node is an instance together with the address under which it is called. A *weighted* node also has
the share of traffic that it is to get, which a `WeightRule` settles once, when the node enters the
routing table: the instance's own wish if it is not negative, and the rule's default otherwise.
-/

namespace Steering

/-- An instance and the address under which it is called. -/
structure Node where
  scheme : String
  address : String
  service : Service
  /-- The weight that the instance asks for. -/
  wish? : Option Int
  deriving Inhabited

/-- The node of an instance, which asks for the weight in its metadata. -/
def Node.ofService (scheme address : String) (service : Service) : Node :=
  { scheme, address, service, wish? := service.weight? }

/-- A node and its weight. -/
structure WeightedNode where
  node : Node
  weight : Int
  deriving Inhabited

namespace WeightedNode

def address (n : WeightedNode) : String := n.node.address

def service (n : WeightedNode) : Service := n.node.service

/-- The weight as it counts: a negative one counts as zero. -/
def effective (n : WeightedNode) : Int := max n.weight 0

theorem effective_nonneg (n : WeightedNode) : 0 ≤ n.effective := by
  simp only [effective]; omega

/-- A weighted node as a text for diagnosis. -/
def describe (n : WeightedNode) : String :=
  "WeightedNode \x7b address: " ++ Text.quoted n.address ++ ", weight: " ++ toString n.weight
    ++ " \x7d"

end WeightedNode

structure WeightRule where
  default : Int := 100
  default_nonneg : 0 ≤ default := by decide

namespace WeightRule

instance : Inhabited WeightRule := ⟨{}⟩

/-- The rule with a given default; a negative default counts as zero. -/
def ofDefault (default : Int) : WeightRule := ⟨max default 0, by omega⟩

def weightOf (rule : WeightRule) (n : Node) : Int :=
  match n.wish? with
  | some w => if 0 ≤ w then w else rule.default
  | none => rule.default

def weigh (rule : WeightRule) (n : Node) : WeightedNode := { node := n, weight := rule.weightOf n }

theorem weightOf_nonneg (rule : WeightRule) (n : Node) : 0 ≤ rule.weightOf n := by
  have h := rule.default_nonneg
  unfold weightOf
  split
  · split <;> assumption
  · exact h

end WeightRule

end Steering
