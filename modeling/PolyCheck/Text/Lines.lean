/-! Lines of a text. A line ends at a line feed, or at a carriage return that a line feed follows
directly; a text that ends with a line feed has no empty last line. -/
namespace PolyCheck.Text

def linesFrom (line : List Char) : List Char → List (List Char)
  | [] => if line.isEmpty then [] else [line.reverse]
  | '\n' :: rest =>
    match line with
    | '\r' :: front => front.reverse :: linesFrom [] rest
    | _ => line.reverse :: linesFrom [] rest
  | c :: rest => linesFrom (c :: line) rest

def lines (text : String) : List String :=
  (linesFrom [] text.toList).map String.ofList

/-- A number, filled up with blanks in front to at least the given width. -/
def padLeft (width number : Nat) : String :=
  let digits := toString number
  String.ofList (List.replicate (width - digits.length) ' ') ++ digits

def repeated (c : Char) (count : Nat) : String :=
  String.ofList (List.replicate count c)

end PolyCheck.Text
