import TreeQuery.Selector.Fault
import TreeQuery.Selector.Token
import TreeQuery.Text.Blank
import TreeQuery.Text.Name

/-! How a text is cut into tokens.
A token is taken off the front of what the tokens before it have left, by that text alone. -/
namespace TreeQuery

/-- What stands at the front of a text: its content, its size in bytes, and the text after it. -/
structure Front (α : Type) where
  content : α
  size : Nat
  rest : List Char

namespace Front

def cons (c : Char) (size : Nat) (front : Front (List Char)) : Front (List Char) :=
  ⟨c :: front.content, size + front.size, front.rest⟩

def map {α β : Type} (f : α → β) (front : Front α) : Front β :=
  ⟨f front.content, front.size, front.rest⟩

end Front

/-- The name characters and escaped characters up to the first other one. -/
def readName : List Char → Except SyntaxFault (Front (List Char))
  | [] => .ok ⟨[], 0, []⟩
  | c :: text =>
    if c = '\\' then
      match text with
      | [] => .error .danglingEscape
      | d :: text => (readName text).map (.cons d (c.utf8Size + d.utf8Size))
    else if isNameChar c then (readName text).map (.cons c c.utf8Size)
    else .ok ⟨[], 0, c :: text⟩

/-- The characters up to the closing quote, which is taken too. -/
def readQuoted (quote : Char) : List Char → Except SyntaxFault (Front (List Char))
  | [] => .error .unterminatedString
  | c :: text =>
    if c = quote then .ok ⟨[], c.utf8Size, text⟩
    else if c = '\\' then
      match text with
      | [] => .error .danglingEscape
      | d :: text => (readQuoted quote text).map (.cons d (c.utf8Size + d.utf8Size))
    else (readQuoted quote text).map (.cons c c.utf8Size)

namespace Token

def ofPair : Char → Char → Option Token
  | '*', '=' => some (.operator .contains)
  | '~', '=' => some (.operator .word)
  | '|', '=' => some (.operator .segment)
  | '^', '=' => some (.operator .startsWith)
  | '$', '=' => some (.operator .endsWith)
  | ':', ':' => some .doubleColon
  | _, _ => none

def ofSymbol : Char → Token
  | '*' => .star
  | '~' => .tilde
  | '|' => .pipe
  | '=' => .operator .equals
  | ':' => .colon
  | '#' => .hash
  | '.' => .dot
  | '[' => .leftBracket
  | ']' => .rightBracket
  | ',' => .comma
  | '>' => .greater
  | '+' => .plus
  | c => .other c

/-- A name that starts with the character `first`, escapes included. -/
def ofName (first : Char) (name : List Char) : Token :=
  if first.isDigit then .numeral (.ofList name) else .ident (.ofList name)

/-- A token of two characters where one can be read, else one of a single character. -/
def readSymbol (c : Char) : List Char → Front Token
  | [] => ⟨ofSymbol c, c.utf8Size, []⟩
  | d :: text =>
    match ofPair c d with
    | some token => ⟨token, c.utf8Size + d.utf8Size, text⟩
    | none => ⟨ofSymbol c, c.utf8Size, d :: text⟩

/-- The first token of the text `c :: text`. -/
def read (c : Char) (text : List Char) : Except SyntaxFault (Front Token) :=
  if isBlank c then
    .ok ⟨.blank, c.utf8Size + byteCount (text.takeWhile isBlank), text.dropWhile isBlank⟩
  else if c = '"' ∨ c = '\'' then
    (readQuoted c text).map fun front =>
      ⟨.quoted (.ofList front.content), c.utf8Size + front.size, front.rest⟩
  else if c = '\\' ∨ isNameChar c then (readName (c :: text)).map (.map (ofName c))
  else .ok (readSymbol c text)

end Token

theorem map_eq_ok_iff {α β ε : Type} {f : α → β} {result : Except ε α} {b : β} :
    result.map f = .ok b ↔ ∃ a, result = .ok a ∧ f a = b := by
  cases result <;> simp [Except.map]

theorem map_eq_error_iff {α β ε : Type} {f : α → β} {result : Except ε α} {e : ε} :
    result.map f = .error e ↔ result = .error e := by
  cases result <;> simp [Except.map]

theorem readName_rest_length {text : List Char} {front : Front (List Char)}
    (h : readName text = .ok front) : front.rest.length ≤ text.length := by
  fun_induction readName text generalizing front with
  | case1 => cases h; simp
  | case2 => cases h
  | case3 d text ih =>
    obtain ⟨inner, hi, rfl⟩ := map_eq_ok_iff.1 h
    have := ih hi
    simp only [Front.cons, List.length_cons]
    omega
  | case4 c text _ _ ih =>
    obtain ⟨inner, hi, rfl⟩ := map_eq_ok_iff.1 h
    have := ih hi
    simp only [Front.cons, List.length_cons]
    omega
  | case5 => cases h; simp

theorem readQuoted_rest_length {quote : Char} {text : List Char} {front : Front (List Char)}
    (h : readQuoted quote text = .ok front) : front.rest.length ≤ text.length := by
  fun_induction readQuoted quote text generalizing front with
  | case1 => cases h
  | case2 => cases h; simp
  | case3 => cases h
  | case4 d text _ ih =>
    obtain ⟨inner, hi, rfl⟩ := map_eq_ok_iff.1 h
    have := ih hi
    simp only [Front.cons, List.length_cons]
    omega
  | case5 c text _ _ ih =>
    obtain ⟨inner, hi, rfl⟩ := map_eq_ok_iff.1 h
    have := ih hi
    simp only [Front.cons, List.length_cons]
    omega

/-- A name takes at least the character that it starts with. -/
theorem readName_takes_first {c : Char} {text : List Char} {front : Front (List Char)}
    (hc : c = '\\' ∨ isNameChar c) (h : readName (c :: text) = .ok front) :
    front.rest.length ≤ text.length := by
  unfold readName at h
  split at h
  · cases text with
    | nil => cases h
    | cons d text =>
      obtain ⟨inner, hi, rfl⟩ := map_eq_ok_iff.1 h
      have := readName_rest_length hi
      simp only [Front.cons, List.length_cons]
      omega
  · rename_i hb
    rw [if_pos (hc.resolve_left hb)] at h
    obtain ⟨inner, hi, rfl⟩ := map_eq_ok_iff.1 h
    have := readName_rest_length hi
    exact this

theorem readSymbol_rest_length (c : Char) (text : List Char) :
    (Token.readSymbol c text).rest.length ≤ text.length := by
  fun_cases Token.readSymbol c text <;> simp

theorem read_rest_length {c : Char} {text : List Char} {front : Front Token}
    (h : Token.read c text = .ok front) : front.rest.length ≤ text.length := by
  unfold Token.read at h
  split at h
  · cases h
    exact (List.dropWhile_suffix isBlank).length_le
  · split at h
    · obtain ⟨inner, hi, rfl⟩ := map_eq_ok_iff.1 h
      exact readQuoted_rest_length hi
    · split at h
      · rename_i hc
        obtain ⟨inner, hi, rfl⟩ := map_eq_ok_iff.1 h
        exact readName_takes_first hc hi
      · cases h
        exact readSymbol_rest_length c text

/-- Where a fault lies when the token that starts `text` cannot be read.
Only the last character of a text can be a backslash that escapes nothing. -/
def faultOffset (offset : Nat) (text : List Char) : SyntaxFault → Nat
  | .danglingEscape => offset + (byteCount text - 1)
  | _ => offset

/-- The tokens of a text that starts at `offset`, or a fault with its offset. -/
def tokensFrom (offset : Nat) : List Char → Except (SyntaxFault × Nat) (List PlacedToken)
  | [] => .ok []
  | c :: text =>
    match _h : Token.read c text with
    | .error fault => .error (fault, faultOffset offset (c :: text) fault)
    | .ok front =>
      (tokensFrom (offset + front.size) front.rest).map (⟨front.content, offset⟩ :: ·)
termination_by text => text.length
decreasing_by
  have := read_rest_length _h
  simp only [List.length_cons]
  omega

def tokens (text : List Char) : Except (SyntaxFault × Nat) (List PlacedToken) :=
  tokensFrom 0 text

end TreeQuery
