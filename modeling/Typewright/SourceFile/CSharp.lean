import Typewright.Declaration.CSharp
import Typewright.Header
import Typewright.SourceFile.Request

/-!
# C# source files

One type in a namespace. The types inside a schema have files of their own.
-/

namespace Typewright.CSharp

def fileHead (namespaceName stamp : String) : List String :=
  [Header.line "csharp" stamp, "using System;", "using System.Collections.Generic;",
    "using System.Text.Json.Serialization;", "", "#nullable enable", "",
    "namespace " ++ namespaceName, "\x7b"]

def sourceFile (namespaceName : String) (r : Request) : RefM String := do
  discard (r.schema.field? "title")
  let type ←
    if ← r.schema.has "enum" then pure (← enumeration r.schema 1)
    else declaration r.scope r.schema 1
  return Text.join "\n" (fileHead namespaceName r.stamp ++ [type, "\x7d"])

end Typewright.CSharp
