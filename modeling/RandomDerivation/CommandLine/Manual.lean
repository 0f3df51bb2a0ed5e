/-!
# Help texts

How the program and its commands are used, line by line, and what is said about them on request.
-/

namespace RandomDerivation.CommandLine

/-- The texts about a command. -/
structure Manual where
  /-- The command with the program's name in front. -/
  program : String
  usageLines : List String
  detailLines : List String

/-- Lines, each with its end. -/
def unlines (lines : List String) : String := String.join (lines.map (· ++ "\n"))

/-- How the command is used. -/
def Manual.usage (m : Manual) : String := unlines m.usageLines

/-- The whole text about the command. -/
def Manual.help (m : Manual) : String := unlines m.usageLines ++ unlines m.detailLines

/-- How the program is used. -/
def mainUsage : List String := [
  "usage: treegen [-h] [-v] \x7bgenerate,validate,example\x7d ..."]

/-- What is said about the program behind its usage. -/
def mainDetails : List String := [
  "",
  "Random depth-bounded derivation trees from a grammar.",
  "",
  "positional arguments:",
  "  \x7bgenerate,validate,example\x7d",
  "    generate            Derive one tree from a grammar config.",
  "    validate            Validate a grammar config and print a brief summary.",
  "    example             Write the bundled example grammar config.",
  "",
  "options:",
  "  -h, --help            show this help message and exit",
  "  -v, --verbose         Enable debug logging.",
  "",
  "GRAMMAR JSON SYNTAX",
  "",
  "Top-level keys",
  "",
  "  name: string (optional)",
  "      A human-readable title.",
  "",
  "  root: string (required)",
  "      Name of the node (or leaf) the derivation starts from.",
  "",
  "  depth: integer >= 0 (default 3)",
  "      Maximum expansion depth. The root is at depth 0; node children of a",
  "      node at the maximum depth are cut off as childless nodes.",
  "",
  "  seed: integer (optional)",
  "      Seed for repeatable trees.",
  "",
  "  leaves: object mapping name -> producer (optional)",
  "",
  "      \x7b \"type\": \"const\",   \"value\": <any JSON value> \x7d",
  "      \x7b \"type\": \"uniform\", \"low\": <number>, \"high\": <number> \x7d",
  "      \x7b \"type\": \"randint\", \"low\": <int>, \"high\": <int> \x7d",
  "      \x7b \"type\": \"choice\",  \"values\": [<any>, ...] \x7d",
  "      \x7b \"type\": \"gauss\",   \"mu\": <number>, \"sigma\": <number> \x7d",
  "",
  "  nodes: object mapping name -> array of slots (optional)",
  "",
  "      \x7b \"leaf\": \"<leaf name>\" \x7d       fill with a leaf value",
  "      \x7b \"node\": \"<node name>\" \x7d       fill with a derived node",
  "      \x7b \"choice\": [<slot>, ...] \x7d     pick one alternative uniformly",
  "",
  "Example",
  "",
  "    \x7b",
  "      \"root\": \"split\",",
  "      \"leaves\": \x7b\"angle\": \x7b\"type\": \"uniform\", \"low\": 0, \"high\": 360\x7d\x7d,",
  "      \"nodes\": \x7b",
  "        \"split\": [",
  "          \x7b\"leaf\": \"angle\"\x7d,",
  "          \x7b\"choice\": [\x7b\"node\": \"split\"\x7d, \x7b\"leaf\": \"angle\"\x7d]\x7d",
  "        ]",
  "      \x7d",
  "    \x7d"]

/-- How the command that derives a tree is used. -/
def generateUsage : List String := [
  "usage: treegen generate [-h] [--depth DEPTH] [--seed SEED]",
  "                        [--format \x7bjson,outline\x7d]",
  "                        config [output]"]

/-- What is said about the command that derives a tree behind its usage. -/
def generateDetails : List String := [
  "",
  "positional arguments:",
  "  config                Path to the grammar JSON config.",
  "  output                Where to write the tree (default: stdout).",
  "",
  "options:",
  "  -h, --help            show this help message and exit",
  "  --depth DEPTH         Override the config's depth.",
  "  --seed SEED           Seed for repeatable randomness.",
  "  --format \x7bjson,outline\x7d",
  "                        Output format. Default: json."]

/-- How the command that checks a configuration is used. -/
def validateUsage : List String := [
  "usage: treegen validate [-h] config"]

/-- What is said about the command that checks a configuration behind its usage. -/
def validateDetails : List String := [
  "",
  "positional arguments:",
  "  config      Path to the grammar JSON config.",
  "",
  "options:",
  "  -h, --help  show this help message and exit"]

/-- How the command that writes the example is used. -/
def exampleUsage : List String := [
  "usage: treegen example [-h] output"]

/-- What is said about the command that writes the example behind its usage. -/
def exampleDetails : List String := [
  "",
  "positional arguments:",
  "  output      Where to write the JSON file.",
  "",
  "options:",
  "  -h, --help  show this help message and exit"]

/-- The texts about the program. -/
def mainManual : Manual := ⟨"treegen", mainUsage, mainDetails⟩

/-- The texts about the command that derives a tree. -/
def generateManual : Manual := ⟨"treegen generate", generateUsage, generateDetails⟩

/-- The texts about the command that checks a configuration. -/
def validateManual : Manual := ⟨"treegen validate", validateUsage, validateDetails⟩

/-- The texts about the command that writes the example. -/
def exampleManual : Manual := ⟨"treegen example", exampleUsage, exampleDetails⟩

end RandomDerivation.CommandLine
