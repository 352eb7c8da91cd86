import Lexicon.Language

/-!
# Built-in languages

Java, and a language whose only delimiters are white space.
-/

namespace Lexicon

namespace Language

/-- The language Java.  The dot is member access; it is also the decimal point. -/
def java : Language where
  name := ascii "java"
  keywords := [
    "abstract", "assert", "boolean", "break", "byte", "case", "catch", "char", "class", "const",
    "continue", "default", "do", "double", "else", "enum", "extends", "final", "finally", "float",
    "for", "goto", "if", "implements", "import", "instanceof", "int", "interface", "long",
    "native", "new", "package", "private", "protected", "public", "return", "short", "static",
    "strictfp", "super", "switch", "synchronized", "this", "throw", "throws", "transient", "try",
    "void", "volatile", "while"].map ascii
  punctuation := [
    ";", "(", ")", "[", "]", "\x7b", "\x7d", "\"", "'", "!", "||", "&&", "?", "+", "-", "*", "/",
    "%", "=", "++", "--", "==", "!=", ">", "<", ">=", "<="].map ascii
  spaces := ["\n", "\r", " ", "\t"].map ascii
  calls := ["."].map ascii

/-- The language whose delimiters are white space. -/
def whitespace : Language where
  name := ascii "whitespace"
  spaces := [" ", "\t", "\r", "\n"].map ascii

/-- The languages that are known by name. -/
def builtins : List Language := [java, whitespace]

/-- The built-in language with a name. -/
def builtin? (name : Bytes) : Option Language := builtins.find? fun l => l.name = name

end Language

end Lexicon
