/-!
# Java strings

Strings of UTF-16 code units, with the characters that the projects give a meaning.
-/

namespace PittCs.Cs1501

/-- A Java `char`. -/
abbrev JChar := UInt16

/-- A Java `String`. -/
abbrev JString := List JChar

/-- The terminating character `'^'`. -/
def caret : JChar := 94

/-- The character `'\''`. -/
def apostrophe : JChar := 39

/-- The character `':'`. -/
def colon : JChar := 58

/-- The character `','`. -/
def comma : JChar := 44

end PittCs.Cs1501
