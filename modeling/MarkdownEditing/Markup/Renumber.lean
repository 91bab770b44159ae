import MarkdownEditing.Markup.Number
import MarkdownEditing.Edit.Change
import MarkdownEditing.Syntax.Place

namespace MarkdownEditing

namespace Place

def followingItems (item : Place) : List Place :=
  item.following.filter fun p => p.isNode && p.kind == .listItem

end Place

def renumberFrom (d : Document) (offset : Int) (previous : Nat) : List Place → List Change
  | [] => []
  | item :: items =>
    match ItemNumber.ofItem? d item.start with
    | none => []
    | some number =>
      if number.value = previous + 1 then
        ⟨item.start + number.indent, item.start + number.digitsStop,
            Text.ofNat ((previous : Int) + 2 + offset).toNat⟩ ::
          renumberFrom d offset number.value items
      else []

/-- Give each item that counts up from `item` the number before it plus two plus `offset`, and
nothing below zero. An offset of zero makes room for one more item, an offset of minus two closes
the gap of a removed one. -/
def renumber (item : Place) (d : Document) (offset : Int) : List Change :=
  match ItemNumber.ofItem? d item.start with
  | none => []
  | some number => renumberFrom d offset number.value item.followingItems

end MarkdownEditing
