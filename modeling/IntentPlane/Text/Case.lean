/-!
# Letter case
-/

namespace IntentPlane.Text

/-- Folds the case of ASCII letters, which is all that folding does to the words that name settings:
no other character folds to one of their letters. -/
def foldCase (text : String) : String :=
  String.ofList (text.toList.map Char.toLower)

end IntentPlane.Text
