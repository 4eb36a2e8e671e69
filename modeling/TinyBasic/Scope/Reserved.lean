/-!
# Names that a program must not take

A program's names are written into C text as they are.  `Reserved.words` are taken there for
every purpose; `Reserved.functions` only where variables live, since labels have a name space of
their own.
-/

namespace TinyBasic.Reserved

/-- Keywords of C and macros of its standard input and output. -/
def words : List String :=
  ["auto", "break", "case", "char", "const", "continue", "default", "do", "double", "else",
    "enum", "extern", "float", "for", "goto", "if", "inline", "int", "long", "register",
    "restrict", "return", "short", "signed", "sizeof", "static", "struct", "switch", "typedef",
    "union", "unsigned", "void", "volatile", "while", "EOF", "NULL", "BUFSIZ", "FILENAME_MAX",
    "FOPEN_MAX", "TMP_MAX", "L_tmpnam", "SEEK_SET", "SEEK_CUR", "SEEK_END", "stdin", "stdout",
    "stderr"]

/-- The functions that the generated text defines or calls. -/
def functions : List String := ["main", "printf", "scanf"]

/-- The names that no label can have. -/
def forLabel (name : String) : Bool := words.contains name

/-- The names that no variable can have. -/
def forVariable (name : String) : Bool := words.contains name || functions.contains name

end TinyBasic.Reserved
