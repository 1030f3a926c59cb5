import ChartParsing.Label.Table
import ChartParsing.Text.Lowercase

/-!
# Reading tokens as words

A token is looked up as it stands, then in small letters, and then stands for
the unknown word, if the lexicon has one.
-/

namespace ChartParsing

/-- How tokens are read: the lexicon's word for tokens it does not have. -/
structure Vocabulary where
  unknown : String
  deriving DecidableEq, Repr

namespace Vocabulary

def default : Vocabulary := ⟨"UNK"⟩

/-- The word a token stands for. -/
def word? (v : Vocabulary) (lexicon : LabelTable) (token : String) : Option UInt32 :=
  (lexicon.number? token).or
    ((lexicon.number? (Text.lowercase token)).or (lexicon.number? v.unknown))

/-- The words of a sentence, or the first token that stands for none. The words
of the tokens before it are added to those given. -/
def words (v : Vocabulary) (lexicon : LabelTable) :
    List String → Array UInt32 → Option String × Array UInt32
  | [], found => (none, found)
  | token :: tokens, found =>
    match v.word? lexicon token with
    | some word => v.words lexicon tokens (found.push word)
    | none => (some token, found)

end Vocabulary
end ChartParsing
