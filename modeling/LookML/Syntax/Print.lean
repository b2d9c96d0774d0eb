import LookML.Syntax.Tree

/-!
# Printing — a syntax tree as source

Printing writes every leaf with its trivia, in order.  A comma that a list lacks between two of
its entries is written as a comma and a space.
-/

namespace LookML

def Pair.print (pair : Pair) : String :=
  pair.key.print ++ pair.colon.print ++ pair.value.print

namespace Entries

/-- Each entry as source. -/
def printEach : Entries → List String
  | values vs => vs.map Leaf.print
  | pairs ps => ps.map Pair.print

/-- The entries after the first, each behind its separator. -/
def joinRest : List Leaf → List String → String
  | _, [] => ""
  | [], entry :: entries => ", " ++ entry ++ joinRest [] entries
  | comma :: commas, entry :: entries => comma.print ++ entry ++ joinRest commas entries

/-- The entries with their separators between them. -/
def join (separators : List Leaf) : List String → String
  | [] => ""
  | entry :: entries => entry ++ joinRest separators entries

end Entries

def Leaf.print? : Option Leaf → String
  | some leaf => leaf.print
  | none => ""

def Listing.print (listing : Listing) : String :=
  listing.key.print ++ listing.colon.print ++ listing.opening.print ++
    Leaf.print? listing.leading? ++ Entries.join listing.separators listing.entries.printEach ++
    Leaf.print? listing.trailing? ++ listing.closing.print

mutual

def Block.print : Block → String
  | ⟨key, colon, name?, opening, container, closing⟩ =>
    key.print ++ colon.print ++ Leaf.print? name? ++ opening.print ++ container.print ++
      closing.print

def Container.print : Container → String
  | ⟨items, _⟩ => Item.printAll items

def Item.printAll : List Item → String
  | [] => ""
  | item :: items => item.print ++ Item.printAll items

def Item.print : Item → String
  | .pair pair => pair.print
  | .listing listing => listing.print
  | .block block => block.print

end

def Document.print (document : Document) : String :=
  document.before ++ document.container.print ++ document.after

end LookML
