set_option autoImplicit false

/-!
# Byte text

Every text of the language is a sequence of bytes: names, literals, messages and output. No byte
is special, and no encoding is assumed. A Lean string stands for its UTF-8 bytes.
-/
namespace ScriptMachine

abbrev Text := List UInt8

namespace Text

def ofString (s : String) : Text := s.toUTF8.data.toList

instance : Coe String Text := ⟨ofString⟩

/-- The byte of an ASCII character; other characters are cut to their low eight bits. -/
def byte (c : Char) : UInt8 := c.toNat.toUInt8

def isDigit (b : UInt8) : Bool := byte '0' ≤ b && b ≤ byte '9'

def isLetter (b : UInt8) : Bool :=
  (byte 'a' ≤ b && b ≤ byte 'z') || (byte 'A' ≤ b && b ≤ byte 'Z')

def newline : Text := [byte '\n']

def digitByte (d : Nat) : UInt8 := (48 + d).toUInt8

def ofNat (n : Nat) : Text :=
  if n < 10 then [digitByte n] else ofNat (n / 10) ++ [digitByte (n % 10)]
decreasing_by omega

def ofInt : Int → Text
  | .ofNat n => ofNat n
  | .negSucc n => byte '-' :: ofNat (n + 1)

def digitValue (b : UInt8) : Nat := b.toNat - 48

def natValue (digits : Text) : Nat :=
  digits.foldl (fun n b => 10 * n + digitValue b) 0

def fill (n : Nat) (b : UInt8) : Text := List.replicate n b

def padLeft (width : Nat) (b : UInt8) (t : Text) : Text := fill (width - t.length) b ++ t

def repeated (n : Nat) (t : Text) : Text := (List.replicate n t).flatten

def join (separator : Text) : List Text → Text
  | [] => []
  | [t] => t
  | t :: u :: rest => t ++ separator ++ join separator (u :: rest)

/-- Splits at the leftmost, non-overlapping occurrences of a separator. While `skip` is positive the
bytes still belong to a separator already found; `piece` holds the bytes read since, newest first. -/
def splitFrom (separator : Text) : Nat → Text → Text → List Text
  | _, piece, [] => [piece.reverse]
  | skip + 1, piece, _ :: rest => splitFrom separator skip piece rest
  | 0, piece, b :: rest =>
    if separator.isPrefixOf (b :: rest) then
      piece.reverse :: splitFrom separator (separator.length - 1) [] rest
    else splitFrom separator 0 (b :: piece) rest

/-- The pieces of a text between the occurrences of a separator; an empty separator gives the
single bytes. -/
def split (separator text : Text) : List Text :=
  if separator.isEmpty then text.map ([·]) else splitFrom separator 0 [] text

def find? (needle : Text) : Text → Option Nat
  | [] => if needle.isEmpty then some 0 else none
  | b :: rest =>
    if needle.isPrefixOf (b :: rest) then some 0 else (find? needle rest).map (· + 1)

theorem find?_le {needle text : Text} {i : Nat} (h : find? needle text = some i) :
    i + needle.length ≤ text.length := by
  induction text generalizing i with
  | nil =>
    simp only [find?] at h
    split at h
    · rename_i hempty
      cases h
      rw [List.isEmpty_iff.1 hempty]
      exact Nat.le_refl 0
    · cases h
  | cons b rest ih =>
    simp only [find?] at h
    split at h
    · rename_i hprefix
      cases h
      rw [Nat.zero_add]
      exact (List.isPrefixOf_iff_prefix.1 hprefix).length_le
    · obtain ⟨j, hj, rfl⟩ := Option.map_eq_some_iff.1 h
      have hle := ih hj
      rw [List.length_cons]
      omega

def findFrom? (needle : Text) (start : Nat) (text : Text) : Option Nat :=
  (find? needle (text.drop start)).map (start + ·)

/-- Takes the first occurrence of `needle` from a place on out of a text, and goes on at the place where
it was. An empty needle takes nothing out. -/
def removeFrom (needle : Text) (start : Nat) (text : Text) : Text :=
  match _h : findFrom? needle start text with
  | some i =>
    if needle = [] then text
    else removeFrom needle i (text.take i ++ text.drop (i + needle.length))
  | none => text
termination_by text.length
decreasing_by
  obtain ⟨j, hj, rfl⟩ := Option.map_eq_some_iff.1 _h
  have hle := find?_le hj
  have hpos := List.length_pos_iff.2 ‹needle ≠ []›
  simp only [List.length_append, List.length_take, List.length_drop] at hle ⊢
  omega

def without (needle text : Text) : Text := removeFrom needle 0 text

/-- Lexicographic order by byte, a proper beginning being smaller. -/
def compare : Text → Text → Ordering
  | [], [] => .eq
  | [], _ :: _ => .lt
  | _ :: _, [] => .gt
  | a :: as, b :: bs => if a < b then .lt else if b < a then .gt else compare as bs

def untilNul (t : Text) : Text := t.takeWhile (· != 0)

def contains (needle : Text) : Text → Bool
  | [] => needle.isEmpty
  | b :: rest => needle.isPrefixOf (b :: rest) || contains needle rest

end Text

end ScriptMachine
