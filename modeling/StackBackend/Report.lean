import StackBackend.Execution

namespace StackBackend

/-! Reports of errors. A syntax error is shown with the source rows it is in and
a mark at the range it concerns; every other error is a single line. -/

/-- The characters that a report is drawn with. -/
structure Glyphs where
  bar : Char
  gap : Char
  dash : Char
  topCorner : Char
  bottomCorner : Char
  messageCorner : Char
  branch : Char
  arrow : Char
  underline : Char
  mark : Char
  emptyMark : Char
deriving DecidableEq

namespace Glyphs

def ascii : Glyphs where
  bar := '|'
  gap := ':'
  dash := '-'
  topCorner := ','
  bottomCorner := '\x27'
  messageCorner := '\x60'
  branch := '|'
  arrow := '>'
  underline := '^'
  mark := '|'
  emptyMark := '|'

def unicode : Glyphs where
  bar := '│'
  gap := '┆'
  dash := '─'
  topCorner := '╭'
  bottomCorner := '╯'
  messageCorner := '╰'
  branch := '├'
  arrow := '▶'
  underline := '─'
  mark := '┬'
  emptyMark := '│'

end Glyphs

/-! ## Source rows

For a report a row also ends at a vertical tab, a form feed and the line and
paragraph separators, so a range inside one line of a listing may cover several
rows. A carriage return and the line feed after it end one row. -/

structure SourceRow where
  /-- Counted from one. -/
  number : Nat
  /-- The index of its first character. -/
  start : Nat
  /-- All its characters, those that end it included. -/
  characters : List Char
deriving DecidableEq

namespace SourceRow

def endsRow (character : Char) : Bool :=
  ['\r', '\n', '\x0b', '\x0c', '\u0085', '\u2028', '\u2029'].contains character

/-- The rows of a text that starts in the middle of a row, which has the
characters `reversed` already. -/
def ofTextFrom (number start : Nat) (reversed : List Char) : List Char → List SourceRow
  | [] => if reversed.isEmpty then [] else [⟨number, start, reversed.reverse⟩]
  | '\r' :: '\n' :: rest =>
      ⟨number, start, ('\n' :: '\r' :: reversed).reverse⟩ ::
        ofTextFrom (number + 1) (start + reversed.length + 2) [] rest
  | character :: rest =>
      if endsRow character then
        ⟨number, start, (character :: reversed).reverse⟩ ::
          ofTextFrom (number + 1) (start + reversed.length + 1) [] rest
      else
        ofTextFrom number start (character :: reversed) rest

def ofText (text : List Char) : List SourceRow :=
  ofTextFrom 1 0 [] text

/-- The row that holds the character at an index. -/
def find (rows : List SourceRow) (index : Nat) : SourceRow :=
  (rows.find? fun row => index < row.start + row.characters.length).getD ⟨1, 0, []⟩

def isBlank (character : Char) : Bool :=
  character = ' ' || character = '\t' || endsRow character

/-- The characters that are shown: all but trailing blanks. -/
def shown (row : SourceRow) : List Char :=
  (row.characters.reverse.dropWhile isBlank).reverse

/-- The columns of the character at an index. A tab goes on to the next multiple
of four; what is not shown counts one column. -/
def width (row : SourceRow) (index : Nat) : Nat :=
  if row.shown[index]? = some '\t' then 4 - index % 4 else 1

/-- The columns of a range of characters. -/
def columns (row : SourceRow) (start count : Nat) : Nat :=
  (List.range count).foldl (fun sum index => sum + row.width (start + index)) 0

/-- The shown characters with tabs as blanks. -/
def text (row : SourceRow) : List Char :=
  row.shown.zipIdx.flatMap fun (character, index) =>
    if character = '\t' then List.replicate (row.width index) ' ' else [character]

end SourceRow

namespace Report

/-! ## Margins

Every line of the drawing starts with a margin that is as wide as the largest
row number in it. -/

def blanks (count : Nat) : List Char :=
  List.replicate count ' '

/-- The margin of a line that shows no row. -/
def margin (width : Nat) (bar : Char) : List Char :=
  blanks (width + 2) ++ [bar, ' ']

def numberedMargin (width : Nat) (bar : Char) (number : Nat) : List Char :=
  let digits := (toString number).toList
  blanks (width + 1 - digits.length) ++ digits ++ [' ', bar, ' ']

/-! ## Ranges

A line of marks or dashes goes on for two characters past the range, or past
the row, in whatever columns these take. -/

/-- The drawing of a range of `length` characters within one row. The message
hangs on the mark under the middle character. -/
def withinRow (glyphs : Glyphs) (width : Nat) (row : SourceRow) (start length : Nat)
    (message : String) : List (List Char) :=
  let indent := blanks (row.columns 0 start)
  let before := row.columns start (length / 2)
  let after := if length = 0 then 0 else row.columns start length - before - 1
  let past :=
    if length = 0 then row.columns start 2 - 1 else row.columns (start + length) 2
  let mark := if length = 0 then glyphs.emptyMark else glyphs.mark
  [numberedMargin width glyphs.bar row.number ++ row.text,
    margin width glyphs.bar ++ indent ++ List.replicate before glyphs.underline ++ [mark] ++
      List.replicate after glyphs.underline ++ blanks past,
    margin width glyphs.bar ++ indent ++ blanks before ++ [glyphs.messageCorner] ++
      List.replicate (after + past) glyphs.dash ++ [' '] ++ message.toList]

/-- The drawing of a range that covers several rows: the first and the last one
are shown, with a gap for those between, and the message hangs on the last. -/
def acrossRows (glyphs : Glyphs) (width : Nat) (first last : SourceRow) (message : String) :
    List (List Char) :=
  let pointer := [glyphs.dash, glyphs.arrow, ' ']
  let past := last.columns 0 (last.characters.length + 2)
  let between :=
    if first.number + 1 < last.number then
      [margin width glyphs.gap ++ [glyphs.gap] ++ blanks 3]
    else
      []
  [numberedMargin width glyphs.bar first.number ++ [glyphs.topCorner] ++ pointer ++
      first.text] ++
    between ++
    [numberedMargin width glyphs.bar last.number ++ [glyphs.branch] ++ pointer ++ last.text,
      margin width glyphs.bar ++ [glyphs.bar] ++ blanks (past + 3),
      margin width glyphs.bar ++ [glyphs.messageCorner] ++
        List.replicate (past + 3) glyphs.dash ++ [' '] ++ message.toList]

/-- The report of a syntax error in the text of the file with the given name. -/
def ofListingError (glyphs : Glyphs) (fileName text : String) (error : ListingError) : String :=
  let rows := SourceRow.ofText text.toList
  let first := SourceRow.find rows error.start
  let last := SourceRow.find rows (max error.start (error.stop - 1))
  let column := error.start - first.start
  let width := (toString last.number).length
  let drawing :=
    if first.number = last.number then
      withinRow glyphs width first column (error.stop - error.start) error.message
    else
      acrossRows glyphs width first last error.message
  let lines : List (List Char) :=
    [("Error: syntax error: " ++ error.message).toList,
      blanks (width + 2) ++ [glyphs.topCorner, glyphs.dash, '['] ++
        s!" {fileName}:{first.number}:{column + 1} ]".toList,
      blanks (width + 2) ++ [glyphs.bar]] ++
    drawing ++
    [List.replicate (width + 2) glyphs.dash ++ [glyphs.bottomCorner]]
  String.ofList (lines.flatMap (· ++ ['\n']))

end Report

namespace RunError

/-- The name that stands for a source without one. -/
def unknownFile : String := "<unknown>"

def report (glyphs : Glyphs) (fileName : String) : RunError → String
  | .listing error text => Report.ofListingError glyphs fileName text error
  | error => "Error: " ++ error.message ++ "\n"

end RunError

end StackBackend
