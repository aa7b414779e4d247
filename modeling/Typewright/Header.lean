/-!
# Header comments

The first line of a generated file says what made it and when.
-/

namespace Typewright.Header

def commentMark (language : String) : String :=
  if language = "python" then "#" else "//"

def line (language stamp : String) : String :=
  commentMark language ++ " Code generated by schema2code at " ++ stamp ++ ". DO NOT EDIT.\n"

end Typewright.Header
