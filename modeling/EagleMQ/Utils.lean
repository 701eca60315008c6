import EagleMQ.Protocol

/-! The validators of request fields and the glob matcher. A validator looks for
the terminating zero at the indices 1 to `size`, so it accepts a field of `size`
characters when the byte behind the field is zero. -/

namespace EagleMQ

def isAlpha (c : Byte) : Bool := 97 ≤ (c ||| 0x20) && (c ||| 0x20) ≤ 122

def isNum (c : Byte) : Bool := 48 ≤ c && c ≤ 57

def isAlphanum (c : Byte) : Bool := isAlpha c || isNum c

/-- `_`, `-` and `.`. -/
def isExtra1 (c : Byte) : Bool := c == 95 || c == 45 || c == 46

/-- `*`, `?`, `[`, `]` and the backslash. -/
def isExtra2 (c : Byte) : Bool := c == 42 || c == 63 || c == 91 || c == 93 || c == 92

def isExtra3 (c : Byte) : Bool := isExtra1 c || isExtra2 c

/-- The first zero byte at the indices 1 to `size` of a buffer; 0 for none. -/
def terminator (m : ℕ → Byte) (size : ℕ) : ℕ :=
  (((List.range size).map (· + 1)).find? fun i => m i == 0).getD 0

def checkInputBuffer1 (m : ℕ → Byte) (size : ℕ) : ℕ :=
  let length := terminator m size
  if (slice m 0 length).all fun c => isAlphanum c || isExtra1 c then length else 0

/-- The middle of a name: no two extra characters in a row. -/
def checkMiddle (extra : Bool) : List Byte → Bool
  | [] => true
  | c :: l => !(isExtra1 c && extra) && (isAlphanum c || isExtra1 c) && checkMiddle (isExtra1 c) l

/-- The last character is not looked at. -/
def checkInputBuffer2 (m : ℕ → Byte) (size : ℕ) : ℕ :=
  let length := terminator m size
  if length = 0 then 0
  else if !isAlpha (m 0) && m 0 != 95 && m 0 != 46 then 0
  else if checkMiddle (m 0 == 95 || m 0 == 46) (slice m 1 (length - 2)) then length
  else 0

def checkInputBuffer3 (m : ℕ → Byte) (size : ℕ) : ℕ :=
  let length := terminator m size
  if (slice m 0 length).all fun c => isAlphanum c || isExtra3 c then length else 0

/-! ### The glob matcher -/

/-- A character of a string and its terminator; further reads are out of bounds. -/
def charAt (l : List Byte) (i : ℕ) : Except Fault Byte :=
  if i < l.length then .ok (l.getD i 0) else if i = l.length then .ok 0 else .error .overread

def toLower (nocase : Bool) (c : Byte) : Byte := if nocase && 65 ≤ c && c ≤ 90 then c + 32 else c

/-- The value of a `char` as an `int`. -/
def charInt (c : Byte) : ℤ := if c < 128 then c.toNat else c.toNat - 256

/-- The stars after the one at `i`: the index of the last, and the length left. -/
def skipStars (l : List Byte) : ℕ → ℕ → ℤ → Except Fault (ℕ × ℤ)
  | 0, _, _ => .error .spin
  | n + 1, i, len => do
    if (← charAt l (i + 1)) = 42 then skipStars l n (i + 1) (len - 1) else .ok (i, len)

/-- The stars from `i` on, skipped after the string has ended. -/
def skipTrailing (l : List Byte) : ℕ → ℕ → ℤ → Except Fault (ℕ × ℤ)
  | 0, _, _ => .error .spin
  | n + 1, i, len => do
    if (← charAt l i) = 42 then skipTrailing l n (i + 1) (len - 1) else .ok (i, len)

/-- A bracket expression after its opening bracket and caret: whether `c` is in
it, and where it ends. -/
def bracket (nocase : Bool) (pattern : List Byte) (c : Except Fault Byte) :
    ℕ → Bool → ℕ → ℤ → Except Fault (Bool × ℕ × ℤ)
  | 0, _, _, _ => .error .spin
  | n + 1, found, i, len => do
    let x ← charAt pattern i
    if x = 92 then
      let y ← charAt pattern (i + 1)
      bracket nocase pattern c n (found || y == (← c)) (i + 2) (len - 2)
    else if x = 93 then .ok (found, i, len)
    else if len = 0 then .ok (found, i - 1, len + 1)
    else
      let y ← charAt pattern (i + 1)
      if y = 45 ∧ 3 ≤ len then
        let z ← charAt pattern (i + 2)
        let lo := min (charInt x) (charInt z)
        let hi := max (charInt x) (charInt z)
        let low (v : ℤ) : ℤ := if nocase && 65 ≤ v && v ≤ 90 then v + 32 else v
        let v := low (charInt (← c))
        let hit := low lo ≤ v && v ≤ low hi
        bracket nocase pattern c n (found || hit) (i + 3) (len - 3)
      else
        bracket nocase pattern c n (found || toLower nocase x == toLower nocase (← c))
          (i + 1) (len - 1)

/-- The rest of a string from an index on. -/
structure Cursor where
  chars : List Byte
  index : ℕ
  length : ℤ

def Cursor.get (c : Cursor) : Except Fault Byte := charAt c.chars c.index

def Cursor.advance (c : Cursor) : Cursor := { c with index := c.index + 1, length := c.length - 1 }

mutual

/-- One turn of the loop for each unit of the bound; a star tries the rest of the
pattern as the string and the rest of the string as the pattern. -/
def patternMatchLength (nocase : Bool) : ℕ → Cursor → Cursor → Except Fault Bool
  | 0, _, _ => .error .spin
  | n + 1, string, pattern => do
    if pattern.length = 0 then .ok (string.length == 0)
    else
      let p ← pattern.get
      if p = 42 then
        let (i, len) ← skipStars pattern.chars (pattern.chars.length + 2) pattern.index pattern.length
        if len = 1 then .ok true
        else matchStar nocase n { pattern with index := i + 1, length := len - 1 } string
      else if p = 63 then
        if string.length = 0 then .ok false
        else matchNext nocase n string.advance pattern.advance
      else if p = 91 then
        let negated := (← charAt pattern.chars (pattern.index + 1)) == 94
        let skip : ℕ := if negated then 2 else 1
        let (found, i, len) ← bracket nocase pattern.chars string.get (pattern.chars.length + 4) false
          (pattern.index + skip) (pattern.length - skip)
        if found == negated then .ok false
        else matchNext nocase n string.advance { pattern with index := i + 1, length := len - 1 }
      else
        let pattern := if p = 92 ∧ 2 ≤ pattern.length then pattern.advance else pattern
        if toLower nocase (← pattern.get) ≠ toLower nocase (← string.get) then .ok false
        else matchNext nocase n string.advance pattern.advance

/-- The end of a turn. -/
def matchNext (nocase : Bool) : ℕ → Cursor → Cursor → Except Fault Bool
  | 0, _, _ => .error .spin
  | n + 1, string, pattern => do
    if string.length = 0 then
      let (_, len) ← skipTrailing pattern.chars (pattern.chars.length + 2) pattern.index pattern.length
      .ok (len == 0)
    else patternMatchLength nocase n string pattern

/-- The loop over the string after a star. -/
def matchStar (nocase : Bool) : ℕ → Cursor → Cursor → Except Fault Bool
  | 0, _, _ => .error .spin
  | n + 1, rest, string => do
    if string.length = 0 then .ok false
    else if ← patternMatchLength nocase n rest string then .ok true
    else matchStar nocase n rest string.advance

end

def patternMatch (string pattern : List Byte) (nocase : Bool) : Except Fault Bool :=
  let n := string.length + pattern.length + 2
  patternMatchLength nocase (2 * n * n) ⟨string, 0, string.length⟩ ⟨pattern, 0, pattern.length⟩

end EagleMQ
