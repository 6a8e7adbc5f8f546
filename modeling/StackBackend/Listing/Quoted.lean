namespace StackBackend.Quoted

/-! Quoted text of assembly listings. Five characters are written as a
backslash and a letter; everything else stands for itself. -/

def encode : List Char → List Char
  | [] => []
  | '\n' :: rest => '\\' :: 'n' :: encode rest
  | '\t' :: rest => '\\' :: 't' :: encode rest
  | '\x00' :: rest => '\\' :: '0' :: encode rest
  | '"' :: rest => '\\' :: '"' :: encode rest
  | '\\' :: rest => '\\' :: '\\' :: encode rest
  | character :: rest => character :: encode rest

/-- The character that a backslash and this letter stand for. -/
def unescape? : Char → Option Char
  | '"' => some '"'
  | '\\' => some '\\'
  | 'n' => some '\n'
  | 't' => some '\t'
  | '0' => some '\x00'
  | _ => none

/-- Reads up to the closing quote and gives the text and what follows the
quote. There is no result when the quote is missing or an escape is unknown. -/
def decode : List Char → Option (List Char × List Char)
  | [] => none
  | '"' :: rest => some ([], rest)
  | ['\\'] => none
  | '\\' :: letter :: rest =>
      match unescape? letter with
      | none => none
      | some character => (decode rest).map fun (text, after) => (character :: text, after)
  | character :: rest => (decode rest).map fun (text, after) => (character :: text, after)

/-- Written text reads back, whatever follows the closing quote. -/
theorem decode_encode (text after : List Char) :
    decode (encode text ++ '"' :: after) = some (text, after) := by
  fun_induction encode text with
  | case1 => rfl
  | case2 rest induction => simp [decode, unescape?, induction]
  | case3 rest induction => simp [decode, unescape?, induction]
  | case4 rest induction => simp [decode, unescape?, induction]
  | case5 rest induction => simp [decode, unescape?, induction]
  | case6 rest induction => simp [decode, unescape?, induction]
  | case7 character rest _ _ _ notQuote notBackslash induction =>
      rw [List.cons_append, decode, induction]
      · rfl
      · exact notQuote
      · intro equal
        exact absurd equal notBackslash
      · intro _ _ equal
        exact absurd equal notBackslash

end StackBackend.Quoted
