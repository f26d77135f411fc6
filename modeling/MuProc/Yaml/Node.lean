import MuProc.Text.ByteString

/-!
# Document trees

A YAML document as a tree of nodes. A mapping holds its keys and values in turn; an
alias has the name of its anchor as value and the anchored node as target. Every
node knows the line and the column of its first character, counted from one.
-/

namespace MuProc.Yaml

/-- What a node is. -/
inductive NodeKind where
  | document
  | sequence
  | mapping
  | scalar
  | alias
  | other
deriving DecidableEq, Repr, Inhabited

/-- One node of a document tree. -/
inductive Node where
  | mk (kind : NodeKind) (tag : String) (value : ByteString) (line column : Int)
      (content : List Node) (target : Option Node)
deriving Repr, Inhabited

namespace Node

def kind : Node → NodeKind
  | mk k _ _ _ _ _ _ => k

def tag : Node → String
  | mk _ t _ _ _ _ _ => t

/-- The text of a scalar, or the name of an alias. -/
def value : Node → ByteString
  | mk _ _ v _ _ _ _ => v

def line : Node → Int
  | mk _ _ _ l _ _ _ => l

def column : Node → Int
  | mk _ _ _ _ c _ _ => c

def content : Node → List Node
  | mk _ _ _ _ _ ns _ => ns

def target : Node → Option Node
  | mk _ _ _ _ _ _ t => t

def withTag (tag : String) : Node → Node
  | mk k _ v l c ns t => mk k tag v l c ns t

def scalar (tag : String) (value : ByteString) (line column : Int) : Node :=
  mk .scalar tag value line column [] none

def sequence (items : List Node) (line column : Int) : Node :=
  mk .sequence "!!seq" "" line column items none

def mapping (content : List Node) (line column : Int) : Node :=
  mk .mapping "!!map" "" line column content none

def aliasOf (name : ByteString) (target : Node) (line column : Int) : Node :=
  mk .alias "" name line column [] (some target)

/-- An alias inside the node that it stands for, which is not complete yet. The tag
tells which one it is. -/
def pendingAlias (slot : String) (name : ByteString) (line column : Int) : Node :=
  mk .alias slot name line column [] none

mutual

/-- Gives the pending aliases of a slot their target. -/
def settle (slot : String) (target : Option Node) : Node → Node
  | mk .alias tag v l c ns none =>
    if tag = slot then mk .alias "" v l c ns target else mk .alias tag v l c ns none
  | mk .alias tag v l c ns (some n) => mk .alias tag v l c ns (some (settle slot target n))
  | mk k tag v l c ns t => mk k tag v l c (settleAll slot target ns) t
termination_by structural n => n

/-- Gives the pending aliases in a list of nodes their target. -/
def settleAll (slot : String) (target : Option Node) : List Node → List Node
  | [] => []
  | n :: ns => settle slot target n :: settleAll slot target ns
termination_by structural ns => ns

end

end Node

end MuProc.Yaml
