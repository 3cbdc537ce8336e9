/-! # The node types of the grammar

A description of the named nodes and of the tokens of the grammar for tools that read it: which
fields a node has, and which kinds of node may stand in them. -/

set_option autoImplicit false

namespace MettaSyntax

/-- The description, as a JSON text. -/
def grammarDescription : String :=
  "[\n" ++
  "  \x7b\n" ++
  "    \"type\": \"atom\",\n" ++
  "    \"named\": true,\n" ++
  "    \"fields\": \x7b\x7d,\n" ++
  "    \"children\": \x7b\n" ++
  "      \"multiple\": false,\n" ++
  "      \"required\": true,\n" ++
  "      \"types\": [\n" ++
  "        \x7b\n" ++
  "          \"type\": \"number\",\n" ++
  "          \"named\": true\n" ++
  "        \x7d,\n" ++
  "        \x7b\n" ++
  "          \"type\": \"string\",\n" ++
  "          \"named\": true\n" ++
  "        \x7d,\n" ++
  "        \x7b\n" ++
  "          \"type\": \"symbol\",\n" ++
  "          \"named\": true\n" ++
  "        \x7d,\n" ++
  "        \x7b\n" ++
  "          \"type\": \"variable\",\n" ++
  "          \"named\": true\n" ++
  "        \x7d\n" ++
  "      ]\n" ++
  "    \x7d\n" ++
  "  \x7d,\n" ++
  "  \x7b\n" ++
  "    \"type\": \"list\",\n" ++
  "    \"named\": true,\n" ++
  "    \"fields\": \x7b\n" ++
  "      \"argument\": \x7b\n" ++
  "        \"multiple\": true,\n" ++
  "        \"required\": false,\n" ++
  "        \"types\": [\n" ++
  "          \x7b\n" ++
  "            \"type\": \"atom\",\n" ++
  "            \"named\": true\n" ++
  "          \x7d,\n" ++
  "          \x7b\n" ++
  "            \"type\": \"list\",\n" ++
  "            \"named\": true\n" ++
  "          \x7d\n" ++
  "        ]\n" ++
  "      \x7d,\n" ++
  "      \"head\": \x7b\n" ++
  "        \"multiple\": false,\n" ++
  "        \"required\": false,\n" ++
  "        \"types\": [\n" ++
  "          \x7b\n" ++
  "            \"type\": \"atom\",\n" ++
  "            \"named\": true\n" ++
  "          \x7d,\n" ++
  "          \x7b\n" ++
  "            \"type\": \"list\",\n" ++
  "            \"named\": true\n" ++
  "          \x7d\n" ++
  "        ]\n" ++
  "      \x7d\n" ++
  "    \x7d\n" ++
  "  \x7d,\n" ++
  "  \x7b\n" ++
  "    \"type\": \"source_file\",\n" ++
  "    \"named\": true,\n" ++
  "    \"fields\": \x7b\x7d,\n" ++
  "    \"children\": \x7b\n" ++
  "      \"multiple\": true,\n" ++
  "      \"required\": false,\n" ++
  "      \"types\": [\n" ++
  "        \x7b\n" ++
  "          \"type\": \"atom\",\n" ++
  "          \"named\": true\n" ++
  "        \x7d,\n" ++
  "        \x7b\n" ++
  "          \"type\": \"list\",\n" ++
  "          \"named\": true\n" ++
  "        \x7d\n" ++
  "      ]\n" ++
  "    \x7d\n" ++
  "  \x7d,\n" ++
  "  \x7b\n" ++
  "    \"type\": \"(\",\n" ++
  "    \"named\": false\n" ++
  "  \x7d,\n" ++
  "  \x7b\n" ++
  "    \"type\": \")\",\n" ++
  "    \"named\": false\n" ++
  "  \x7d,\n" ++
  "  \x7b\n" ++
  "    \"type\": \"comment\",\n" ++
  "    \"named\": true\n" ++
  "  \x7d,\n" ++
  "  \x7b\n" ++
  "    \"type\": \"number\",\n" ++
  "    \"named\": true\n" ++
  "  \x7d,\n" ++
  "  \x7b\n" ++
  "    \"type\": \"string\",\n" ++
  "    \"named\": true\n" ++
  "  \x7d,\n" ++
  "  \x7b\n" ++
  "    \"type\": \"symbol\",\n" ++
  "    \"named\": true\n" ++
  "  \x7d,\n" ++
  "  \x7b\n" ++
  "    \"type\": \"variable\",\n" ++
  "    \"named\": true\n" ++
  "  \x7d\n" ++
  "]\n"

end MettaSyntax
