/-!
Tokens: pieces of a text, each with the id of its kind and the place where it begins.
-/

namespace Typeahead

/-- The number that stands for one kind of token. -/
structure TokenId where
  code : Int32
deriving DecidableEq

namespace TokenId

/-- The kind of the sentinel behind the last token. -/
def eof : TokenId := ⟨-1⟩

/-- The kind of text that belongs to no other kind. -/
def invalid : TokenId := ⟨0⟩

/-- The id with a given number, if it is a signed number of 32 bits. -/
def ofInt? (n : Int) : Option TokenId :=
  if -2147483648 ≤ n ∧ n ≤ 2147483647 then some ⟨Int32.ofInt n⟩ else none

def toInt (id : TokenId) : Int := id.code.toInt

end TokenId

/-- The stream a token is sent on. Grammars see the tokens of the default channel alone. -/
structure Channel where
  number : Nat
deriving DecidableEq

namespace Channel

def default : Channel := ⟨0⟩

def hidden : Channel := ⟨1⟩

end Channel

/-- A piece of a text. Its place is given in bytes. -/
@[ext]
structure Token where
  id : TokenId
  text : String
  start : Nat
  channel : Channel
deriving DecidableEq

namespace Token

def stop (token : Token) : Nat := token.start + token.text.utf8ByteSize

def eof (size : Nat) : Token := ⟨.eof, "", size, .default⟩

def isEof (token : Token) : Bool := token.id == .eof

theorem isEof_eof (size : Nat) : (eof size).isEof = true := rfl

end Token

end Typeahead
