/-! Reading bytes as text. A byte-order mark in front is not part of the text. -/

namespace Snack.Text

/-- The bytes behind a byte-order mark, if there is one. -/
def withoutMark (bytes : ByteArray) : ByteArray :=
  if bytes.data.toList.take 3 = [0xef, 0xbb, 0xbf] then bytes.extract 3 bytes.size else bytes

/-- Where the first byte sequence from `i` on begins that is no character. -/
def firstBad (bytes : ByteArray) (i : Nat) : Nat :=
  match _h : bytes.utf8DecodeChar? i with
  | some c => firstBad bytes (i + c.utf8Size)
  | none => i
termination_by bytes.size - i
decreasing_by
  have := c.utf8Size_pos
  have := ByteArray.lt_size_of_isSome_utf8DecodeChar? (i := i) (b := bytes) (by simp [_h])
  omega

/-- The text that bytes stand for, or the place of the first one that stands for nothing. -/
def decode (bytes : ByteArray) : Except Nat String :=
  let body := withoutMark bytes
  match String.fromUTF8? body with
  | some s => .ok s
  | none => .error (firstBad body 0)

end Snack.Text
