namespace TapeMachine.Text

def isLayout (c : Char) : Bool :=
  c == ' ' || c == '\n' || c == '\t' || c == '\r'

def isWideSpace (c : Char) : Bool :=
  c == '\u0085' || c == '\u00a0' || c == '\u1680' || ('\u2000' ≤ c && c ≤ '\u200a') ||
    c == '\u2028' || c == '\u2029' || c == '\u202f' || c == '\u205f' || c == '\u3000'

def isPadding (c : Char) : Bool :=
  c == ' ' || ('\t' ≤ c && c ≤ '\r') || isWideSpace c

/-- White space in any script, with the four separators among the control characters. -/
def isSpace (c : Char) : Bool :=
  isPadding c || ('\x1c' ≤ c && c ≤ '\x1f')

def trim (blank : Char → Bool) (text : List Char) : List Char :=
  ((text.dropWhile blank).reverse.dropWhile blank).reverse

end TapeMachine.Text
