import MathNotes.Page.Line

/-!
# Pages as HTML

A self-contained page: one division per line, which carries its LaTeX in an attribute for the
typesetting script of the page. Everything that comes from the notes is escaped.
-/

namespace MathNotes.Html

/-- A character in HTML: the five characters with a meaning of their own are written as entities. -/
def escapeChar (c : Char) : Text :=
  if c == '&' then "&amp;"
  else if c == '<' then "&lt;"
  else if c == '>' then "&gt;"
  else if c == '"' then "&#34;"
  else if c == '\'' then "&#39;"
  else [c]

/-- A text in HTML. -/
def escape (text : Text) : Text := text.flatMap escapeChar

/-- The version of the typesetting script. -/
def katexVersion : Text := "0.16.9"

/-- Where a file of the typesetting script is loaded from. -/
def katexFile (name : Text) : Text :=
  "https://cdn.jsdelivr.net/npm/katex@" ++ katexVersion ++ "/dist/" ++ name

/-- The style sheet of a page. -/
def styleSheet : List Text :=
  ["  <style>",
    "    body \x7b font-family: Georgia, \"Times New Roman\", serif; max-width: 900px; margin: 2.5rem auto; padding: 0 1.5rem; line-height: 1.5; \x7d",
    "    body.mathscript-dark-mode \x7b background: #1e1f22; color: #e6e6e6; \x7d",
    "    header.doc-header \x7b border-bottom: 1px solid #ccc; margin-bottom: 1.5rem; padding-bottom: 0.75rem; \x7d",
    "    header.doc-header h1 \x7b margin: 0 0 0.25rem; font-size: 1.8rem; \x7d",
    "    .doc-meta \x7b color: #666; font-size: 0.95rem; \x7d",
    "    .mathscript-dark-mode .doc-meta \x7b color: #aaa; \x7d",
    "    .math-line \x7b display: flex; align-items: baseline; \x7d",
    "    .math-line .line-number \x7b width: 3rem; flex: none; color: #999; font-family: monospace; font-size: 0.85rem; \x7d",
    "    .math-line .math-body \x7b flex: 1; overflow-x: auto; \x7d",
    "    .math-line .katex-display \x7b margin: 0.35rem 0; text-align: left; \x7d",
    "    .math-line .katex-display > .katex \x7b text-align: left; \x7d",
    "    .math-gap \x7b height: 0.75rem; \x7d",
    "    .math-error \x7b color: #c0392b; font-family: monospace; \x7d",
    "    @media print \x7b",
    "      body \x7b margin: 0; max-width: none; background: #fff; color: #000; \x7d",
    "      .math-line \x7b break-inside: avoid; \x7d",
    "    \x7d",
    "  </style>"]

/-- The script that sets the formulas of a page, and the end of the page. -/
def script : List Text :=
  ["  <script>",
    "    document.addEventListener(\"DOMContentLoaded\", function () \x7b",
    "      document.querySelectorAll(\".math-body[data-latex]\").forEach(function (el) \x7b",
    "        try \x7b",
    "          katex.render(el.dataset.latex, el, \x7b displayMode: true, throwOnError: false, trust: false \x7d);",
    "        \x7d catch (err) \x7b",
    "          el.textContent = el.dataset.latex;",
    "          el.classList.add(\"math-error\");",
    "        \x7d",
    "      \x7d);",
    "    \x7d);",
    "  </script>",
    "</body>",
    "</html>"]

/-- The head of a page, up to its style sheet. -/
def head (title : Text) : List Text :=
  ["<!DOCTYPE html>".toList,
    "<html lang=\"en\">",
    "<head>",
    "  <meta charset=\"utf-8\">",
    "  <meta name=\"viewport\" content=\"width=device-width, initial-scale=1\">",
    "  <title>" ++ escape title ++ "</title>",
    "  <link rel=\"stylesheet\" href=\"" ++ katexFile "katex.min.css" ++ "\">",
    "  <script defer src=\"" ++ katexFile "katex.min.js" ++ "\"></script>"]

/-- The author and the date of a page. -/
def byline (today : Text) (details : PageDetails) : List Text :=
  let author := match PageDetails.given details.author with
    | some author =>
      "<span class=\"doc-author\">" ++ escape author ++ "</span> &middot; "
    | none => []
  ["    <div class=\"doc-meta\">",
    author ++ "      <time class=\"doc-date\">" ++ escape (details.shownDate today) ++ "</time>",
    "    </div>"]

/-- The division of a line. -/
def division (lineNumbers : Bool) (line : NumberedLine) : List Text :=
  match line.kind with
  | .empty => ["    <div class=\"math-gap\" id=\"" ++ escape line.id ++ "\"></div>"]
  | kind =>
    let number := if lineNumbers then
        "<span class=\"line-number\">" ++ (line.number.elim [] Text.ofNat) ++ "</span>"
      else []
    ["    <div class=\"math-line math-" ++ kind.name ++ "\" id=\"" ++ escape line.id ++ "\">",
      number ++ "      <div class=\"math-body\" data-latex=\"" ++ escape line.latex
        ++ "\"></div>",
      "    </div>"]

/-- The class of a page's body. -/
def bodyClass (darkMode : Bool) : Text :=
  if darkMode then "mathscript-dark-mode" else "mathscript-light-mode"

/-- The part of a page between its style sheet and its title. -/
def top (darkMode : Bool) : List Text :=
  ["</head>".toList,
    "<body class=\"" ++ bodyClass darkMode ++ "\">",
    "  <header class=\"doc-header\">"]

/-- A page in HTML. -/
def page (today : Text) (details : PageDetails) (lines : List OutputLine) : Text :=
  Text.join "\n"
    (head details.shownTitle ++ styleSheet ++ top details.darkMode
      ++ ["    <h1>" ++ escape details.shownTitle ++ "</h1>"]
      ++ byline today details
      ++ ["  </header>".toList, "  <main class=\"doc-body\">"]
      ++ (numberLines lines).flatMap (division details.lineNumbers)
      ++ ["  </main>".toList] ++ script)

end MathNotes.Html
