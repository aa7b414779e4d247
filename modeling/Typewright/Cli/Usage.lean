/-!
# The texts of the command line

The version, the usage and the help.
-/

namespace Typewright.Cli

def versionLine : String := "schema2code 0.2.0"

def usageLines : List String :=
  ["usage: schema2code [-h] [--version] --language",
    "                   \x7bgo,python,typescript,csharp,dotnet,proto,protobuf\x7d",
    "                   --output OUTPUT [--mode \x7bcreate,append\x7d] [--no-create]",
    "                   [--no-overwrite] [--package PACKAGE]",
    "                   [--namespace NAMESPACE] [--no-pydantic]",
    "                   [--go-package GO_PACKAGE]",
    "                   schema_file"]

def helpLines : List String :=
  usageLines ++
  ["",
    "Generate code types from JSON or YAML schema",
    "",
    "positional arguments:",
    "  schema_file           Path to the JSON or YAML schema file",
    "",
    "options:",
    "  -h, --help            show this help message and exit",
    "  --version             show program's version number and exit",
    "  --language \x7bgo,python,typescript,csharp,dotnet,proto,protobuf\x7d, -l \x7bgo,python,typescript,csharp,dotnet,proto,protobuf\x7d",
    "                        Target language for code generation",
    "  --output OUTPUT, -o OUTPUT",
    "                        Output file path",
    "  --mode \x7bcreate,append\x7d",
    "                        Whether to create a new file or append to existing",
    "  --no-create           Don't create the file if it doesn't exist",
    "  --no-overwrite        Don't overwrite the file if it already exists",
    "  --package PACKAGE     Go package name or Protocol Buffer package name",
    "  --namespace NAMESPACE",
    "                        C# namespace",
    "  --no-pydantic         Use dataclasses instead of Pydantic for Python",
    "  --go-package GO_PACKAGE",
    "                        Go package option for Protocol Buffer files"]

def errorLines (message : String) : List String :=
  usageLines ++ ["schema2code: error: " ++ message]

end Typewright.Cli
