import CodeEmission.Bytes
import CodeEmission.Toml.Moment

/-! # Tokens of configuration notation

Lines end where a token says so; spaces and comments are passed over. Unquoted keys, words, numbers and
dates are runs of characters that are looked at only where it is known what they stand for.
-/

namespace CodeEmission.Toml

inductive Token where
  | newline
  | equals
  | comma
  | openBracket (doubled : Bool)
  | closeBracket (doubled : Bool)
  | openBrace
  | closeBrace
  /-- A quoted text, and whether it may run over several lines. -/
  | string (s : String) (multiline : Bool)
  | run (cs : List Char)
  deriving DecidableEq, Repr, Inhabited

namespace Token

def isSpace (c : Char) : Bool := c = ' ' || c = '\t'

def isText (c : Char) : Bool := c = '\t' || (0x20 ≤ c.toNat && c ≠ '\x7f')

def isRunChar (c : Char) : Bool :=
  c.isAlphanum || c = '_' || c = '+' || c = '-' || c = '.' || c = ':'

def letter? : Char → Option Char
  | '"' => some '"'
  | '\\' => some '\\'
  | 'b' => some '\x08'
  | 'f' => some '\x0c'
  | 'n' => some '\n'
  | 'r' => some '\r'
  | 't' => some '\t'
  | _ => none

def hexChar? (digits : List Char) : Option Char := do
  let n ← digits.foldlM (fun n c => (Bytes.hexValue? c).map (n * 16 + ·)) 0
  if h : n.isValidChar then some (Char.ofNatAux n h) else none

def escape? : List Char → Option (Char × List Char)
  | 'u' :: a :: b :: c :: d :: cs => (hexChar? [a, b, c, d]).map (·, cs)
  | 'U' :: a :: b :: c :: d :: e :: f :: g :: h :: cs =>
    (hexChar? [a, b, c, d, e, f, g, h]).map (·, cs)
  | c :: cs => (letter? c).map (·, cs)
  | [] => none

theorem length_of_escape? {c : Char} {cs rest : List Char} (h : escape? cs = some (c, rest)) :
    rest.length < cs.length := by
  unfold escape? at h
  split at h
  all_goals
    simp only [Option.map_eq_some_iff, Prod.mk.injEq, reduceCtorEq] at h
    try obtain ⟨_, -, -, rfl⟩ := h
    try simp only [List.length_cons]
    try omega

def dropBlank : List Char → List Char
  | [] => []
  | c :: cs =>
    if isSpace c ∨ c = '\n' ∨ (c = '\r' ∧ cs.head? = some '\n') then dropBlank cs else c :: cs

theorem length_dropBlank (cs : List Char) : (dropBlank cs).length ≤ cs.length := by
  fun_induction dropBlank cs <;> grind

/-- What follows a line end that is hidden by the backslash before it, with the blanks behind it. -/
def hiddenEnd? (cs : List Char) : Option (List Char) :=
  match cs.dropWhile isSpace with
  | '\n' :: rest => some (dropBlank rest)
  | '\r' :: '\n' :: rest => some (dropBlank rest)
  | _ => none

theorem length_of_hiddenEnd? {cs rest : List Char} (h : hiddenEnd? cs = some rest) :
    rest.length < cs.length := by
  have hd := (List.dropWhile_suffix (l := cs) isSpace).length_le
  unfold hiddenEnd? at h
  split at h
  · rename_i r hr
    cases h
    have := length_dropBlank r
    simp only [hr, List.length_cons] at hd
    omega
  · rename_i r hr
    cases h
    have := length_dropBlank r
    simp only [hr, List.length_cons] at hd
    omega
  · cases h

def basic? (done cs : List Char) : Option (String × List Char) :=
  match cs with
  | [] => none
  | c :: cs =>
    if c = '"' then some (String.ofList done.reverse, cs)
    else if c = '\\' then
      match h : escape? cs with
      | some (e, rest) =>
        have := length_of_escape? h
        basic? (e :: done) rest
      | none => none
    else if isText c then basic? (c :: done) cs
    else none
termination_by cs.length

def literal? (done : List Char) : List Char → Option (String × List Char)
  | [] => none
  | c :: cs =>
    if c = '\'' then some (String.ofList done.reverse, cs)
    else if isText c then literal? (c :: done) cs
    else none

def isClosing (quote : Char) (cs : List Char) : Bool := cs.take 3 = [quote, quote, quote]

/-- The end of a text over several lines, given what follows its closing quotes. Up to two more quotes
belong to the text. -/
def closed (quote : Char) (done rest : List Char) : String × List Char :=
  let extra := (rest.take 2).takeWhile (· = quote)
  (String.ofList (done.reverse ++ extra), rest.drop extra.length)

def multilineBasic? (done cs : List Char) : Option (String × List Char) :=
  match cs with
  | [] => none
  | c :: cs =>
    if isClosing '"' (c :: cs) then some (closed '"' done (cs.drop 2))
    else if c = '\\' then
      match h : escape? cs with
      | some (e, rest) =>
        have := length_of_escape? h
        multilineBasic? (e :: done) rest
      | none =>
        match h : hiddenEnd? cs with
        | some rest =>
          have := length_of_hiddenEnd? h
          multilineBasic? done rest
        | none => none
    else if c = '\r' ∧ cs.head? = some '\n' then multilineBasic? done cs
    else if isText c ∨ c = '\n' then multilineBasic? (c :: done) cs
    else none
termination_by cs.length

def multilineLiteral? (done : List Char) : List Char → Option (String × List Char)
  | [] => none
  | c :: cs =>
    if isClosing '\'' (c :: cs) then some (closed '\'' done (cs.drop 2))
    else if c = '\r' ∧ cs.head? = some '\n' then multilineLiteral? done cs
    else if isText c ∨ c = '\n' then multilineLiteral? (c :: done) cs
    else none

/-- A text over several lines without the end of its first line if there is nothing else on it. -/
def dropFirstNewline : List Char → List Char
  | '\n' :: cs => cs
  | '\r' :: '\n' :: cs => cs
  | cs => cs

def quoted? (cs : List Char) : Option (Token × List Char) :=
  let multiline (read : List Char → Option (String × List Char)) : Option (Token × List Char) :=
    (read (dropFirstNewline (cs.drop 3))).map fun r => (.string r.1 true, r.2)
  let single (read : List Char → Option (String × List Char)) : Option (Token × List Char) :=
    (read (cs.drop 1)).map fun r => (.string r.1 false, r.2)
  if isClosing '"' cs then multiline (multilineBasic? [])
  else if isClosing '\'' cs then multiline (multilineLiteral? [])
  else if cs.head? = some '"' then single (basic? [])
  else if cs.head? = some '\'' then single (literal? [])
  else none

theorem length_of_basic? {done cs rest : List Char} {s : String}
    (h : basic? done cs = some (s, rest)) : rest.length < cs.length := by
  fun_induction basic? done cs <;> grind

theorem length_of_literal? {done cs rest : List Char} {s : String}
    (h : literal? done cs = some (s, rest)) : rest.length < cs.length := by
  fun_induction literal? done cs <;> grind

theorem length_closed (quote : Char) (done rest : List Char) :
    (closed quote done rest).2.length ≤ rest.length := by
  simp [closed]

theorem length_of_multilineBasic? {done cs rest : List Char} {s : String}
    (h : multilineBasic? done cs = some (s, rest)) : rest.length < cs.length := by
  fun_induction multilineBasic? done cs <;> grind [length_closed]

theorem length_of_multilineLiteral? {done cs rest : List Char} {s : String}
    (h : multilineLiteral? done cs = some (s, rest)) : rest.length < cs.length := by
  fun_induction multilineLiteral? done cs <;> grind [length_closed]

theorem length_dropFirstNewline (cs : List Char) : (dropFirstNewline cs).length ≤ cs.length := by
  unfold dropFirstNewline
  split <;> grind

theorem length_of_quoted? {cs rest : List Char} {t : Token} (h : quoted? cs = some (t, rest)) :
    rest.length < cs.length := by
  have h3 := length_dropFirstNewline (cs.drop 3)
  simp only [List.length_drop] at h3
  have h1 := List.length_drop (i := 1) (l := cs)
  unfold quoted? at h
  simp only at h
  split at h
  · obtain ⟨r, hr, hrest⟩ := Option.map_eq_some_iff.1 h
    cases hrest
    have := length_of_multilineBasic? hr
    omega
  · split at h
    · obtain ⟨r, hr, hrest⟩ := Option.map_eq_some_iff.1 h
      cases hrest
      have := length_of_multilineLiteral? hr
      omega
    · split at h
      · obtain ⟨r, hr, hrest⟩ := Option.map_eq_some_iff.1 h
        cases hrest
        have := length_of_basic? hr
        omega
      · split at h
        · obtain ⟨r, hr, hrest⟩ := Option.map_eq_some_iff.1 h
          cases hrest
          have := length_of_literal? hr
          omega
        · cases h

def punctuation? (c : Char) (cs : List Char) : Option Token :=
  match c with
  | '\n' => some .newline
  | '=' => some .equals
  | ',' => some .comma
  | '[' => some (.openBracket (cs.head? = some '['))
  | ']' => some (.closeBracket (cs.head? = some ']'))
  | '\x7b' => some .openBrace
  | '\x7d' => some .closeBrace
  | _ => none

/-- A run that starts with a character, and what follows it. A date takes in the time that a single space
sets apart from it. -/
def spanRun (c : Char) (cs : List Char) : List Char × List Char :=
  let first := c :: cs.takeWhile isRunChar
  match cs.dropWhile isRunChar with
  | ' ' :: d :: rest =>
    if Moment.isDate first ∧ d.isDigit then
      (first ++ ' ' :: d :: rest.takeWhile isRunChar, rest.dropWhile isRunChar)
    else (first, ' ' :: d :: rest)
  | rest => (first, rest)

theorem length_spanRun (c : Char) (cs : List Char) : (spanRun c cs).2.length ≤ cs.length := by
  have hd := (List.dropWhile_suffix (l := cs) isRunChar).length_le
  unfold spanRun
  simp only
  split
  · rename_i d rest hr
    have hr' := (List.dropWhile_suffix (l := rest) isRunChar).length_le
    simp only [hr, List.length_cons] at hd
    split
    · simp only
      omega
    · simp only [List.length_cons]
      omega
  · exact hd

def readFrom (done : Array Token) (cs : List Char) : Option (Array Token) :=
  match cs with
  | [] => some done
  | c :: cs =>
    if isSpace c ∨ (c = '\r' ∧ cs.head? = some '\n') then readFrom done cs
    else if c = '#' then
      have := (List.dropWhile_suffix (l := cs) isText).length_le
      readFrom done (cs.dropWhile isText)
    else
      match punctuation? c cs with
      | some t => readFrom (done.push t) cs
      | none =>
        if isRunChar c then
          have := length_spanRun c cs
          readFrom (done.push (.run (spanRun c cs).1)) (spanRun c cs).2
        else
          match h : quoted? (c :: cs) with
          | none => none
          | some (t, rest) =>
            have := length_of_quoted? h
            readFrom (done.push t) rest
termination_by cs.length
decreasing_by
  all_goals
    simp only [List.length_cons] at *
    omega

/-- The tokens of a text, whose last line ends with the text. A mark of the byte order at its start is
passed over. -/
def read? (text : String) : Option (List Token) :=
  let cs := match text.toList with
    | '\ufeff' :: cs => cs
    | cs => cs
  (readFrom #[] cs).map fun ts => (ts.push .newline).toList

end Token

end CodeEmission.Toml
