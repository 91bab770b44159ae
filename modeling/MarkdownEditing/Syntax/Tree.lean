import MarkdownEditing.Syntax.Token

namespace MarkdownEditing

/-- A leaf made of raw tokens, or a node over further trees. -/
inductive Tree
  | token (kind : Kind) (raw : List Token)
  | node (kind : Kind) (children : List Tree)
  deriving Repr, Inhabited

namespace Tree

def kind : Tree → Kind
  | token kind _ => kind
  | node kind _ => kind

def isNode : Tree → Bool
  | token .. => false
  | node .. => true

mutual

def raw : Tree → List Token
  | token _ raw => raw
  | node _ children => rawAll children

def rawAll : List Tree → List Token
  | [] => []
  | t :: ts => t.raw ++ rawAll ts

end

def text (t : Tree) : Text := Token.join t.raw

mutual

def size : Tree → Nat
  | token _ raw => Text.size (Token.join raw)
  | node _ children => sizeAll children

def sizeAll : List Tree → Nat
  | [] => 0
  | t :: ts => t.size + sizeAll ts

end

def leaf (t : Token) : Tree := token t.kind [t]

def glueLimit : Nat := 255

/-- One leaf of kind `kind` out of all the tokens. Nothing becomes no leaf, and runs too long to be
glued stay single tokens. -/
def glue (kind : Kind) (tokens : List Token) : List Tree :=
  if tokens = [] then []
  else if tokens.length ≤ glueLimit then [token kind tokens]
  else tokens.map leaf

@[simp] theorem rawAll_nil : rawAll [] = [] := by simp [rawAll]

@[simp] theorem rawAll_cons (t : Tree) (ts : List Tree) :
    rawAll (t :: ts) = t.raw ++ rawAll ts := by
  simp [rawAll]

@[simp] theorem rawAll_append (a b : List Tree) : rawAll (a ++ b) = rawAll a ++ rawAll b := by
  induction a with
  | nil => simp
  | cons t ts ih => simp [ih]

@[simp] theorem raw_token (kind : Kind) (tokens : List Token) :
    (token kind tokens).raw = tokens := by
  simp [raw]

@[simp] theorem raw_node (kind : Kind) (children : List Tree) :
    (node kind children).raw = rawAll children := by
  simp [raw]

mutual

theorem size_eq (t : Tree) : t.size = t.text.size := by
  cases t with
  | token kind tokens => simp [size, text]
  | node kind children => rw [size, sizeAll_eq, text, raw_node]

theorem sizeAll_eq (ts : List Tree) : sizeAll ts = Text.size (Token.join (rawAll ts)) := by
  cases ts with
  | nil =>
    rw [sizeAll, rawAll_nil]
    rfl
  | cons t ts =>
    rw [sizeAll, size_eq t, sizeAll_eq ts, rawAll_cons, Token.join_append, Text.size_append, text]

end

@[simp] theorem rawAll_map_leaf (tokens : List Token) : rawAll (tokens.map leaf) = tokens := by
  induction tokens with
  | nil => simp
  | cons t ts ih => simp [leaf, ih]

@[simp] theorem rawAll_glue (kind : Kind) (tokens : List Token) :
    rawAll (glue kind tokens) = tokens := by
  unfold glue
  split
  · rename_i none_left
    simp [none_left]
  split <;> simp

end Tree

end MarkdownEditing
