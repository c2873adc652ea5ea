import XPathAssembly.CommandLine.Response

/-!
# The long description

The text that describes the package to its users at length.
-/

namespace XPathAssembly

namespace Upkeep

def readme : Text := Manual.ofLines
  ["************",
   "slax-strings",
   "************",
   "",
   "Assemble SLAX token segments into XPath, concat() and attribute-value templates.",
   "",
   "SLAX is an alternative syntax for XSLT. Its compiler scans the expressions into",
   "tokens, and this package glues the tokens back together into the strings",
   "which end up in the generated XSLT:",
   "",
   "* plain XPath expressions, spaced the way XPath expects (``foo/goo[@zoo]``,",
   "  ``child::para``, ``-5``, ``5 - 3``),",
   "* invocations of ``concat()`` for SLAX concatenations (``a1/a2 _ \"-\" _ $b``",
   "  becomes ``concat(a1/a2, \"-\", $b)``), and",
   "* attribute value templates (``one _ \"-\" _ two`` becomes ``\x7bone\x7d-\x7btwo\x7d``).",
   "",
   "The escape sequences of the quoted literals (``\\n``, ``\\r``, ``\\t``, ``\\xHH``,",
   "``\\u+HHHH`` and ``\\u-HHHHHH``) are decoded to UTF-8 when the literal is",
   "scanned.",
   "",
   "Installation",
   "============",
   "Install from the repository with pip:",
   "",
   ".. code-block::",
   "",
   "    pip3 install .",
   "",
   "Usage",
   "=====",
   "The tokens are given as a JSON file. The file contains a list of expressions,",
   "where every expression is a list of ``[kind, text]`` pairs:",
   "",
   ".. code-block:: json",
   "",
   "    [",
   "        [[\"bare\", \"a1\"], [\"slash\", \"/\"], [\"bare\", \"a2\"]],",
   "        [[\"quoted\", \"\\\"-\\\"\"]],",
   "        [[\"var_name\", \"$b\"]]",
   "    ]",
   "",
   "Render it:",
   "",
   ".. code-block::",
   "",
   "    slax-strings --input tokens.json --mode concat",
   "",
   "which prints:",
   "",
   ".. code-block::",
   "",
   "    concat(a1/a2, \"-\", $b)",
   "",
   "The modes are:",
   "",
   "``xpath``",
   "    Render the first expression as a plain XPath expression.",
   "",
   "``concat``",
   "    Render the expressions as a ``concat()`` invocation.",
   "",
   "``avt``",
   "    Render the expressions as an attribute value template.",
   "",
   "``fuse``",
   "    Fuse the first expression into a single token, quoting its literals.",
   "",
   "``dump``",
   "    Dump the segments for debugging.",
   "",
   "Pass ``--quotes`` to wrap the quoted literals in quotes, and ``--braces``",
   "to double the braces within them.",
   "",
   "Development",
   "===========",
   "Check out the repository and install the development dependencies:",
   "",
   ".. code-block::",
   "",
   "    pip3 install -e .[dev]",
   "",
   "Run the pre-commit checks:",
   "",
   ".. code-block::",
   "",
   "    python continuous_integration/precommit.py"]

end Upkeep

end XPathAssembly
