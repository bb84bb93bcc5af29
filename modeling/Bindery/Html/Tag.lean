import Bindery.Html.Escape

/-!
The elements whose markup a page can adjust: headings, anchors and images.
-/

namespace Bindery.Html

def digitsOf (n : Nat) : List Char := (toString n).toList

def writeAttr (name value : List Char) : List Char :=
  ' ' :: name ++ "=\"".toList ++ escapeAttr value ++ "\"".toList

def titleAttribute (title : Option (List Char)) : List Char :=
  match title with
  | some t => writeAttr "title".toList t
  | none => []

def headingTag (level : Nat) (id : Option (List Char)) (html : List Char) : List Char :=
  let idText := match id with
    | some id => writeAttr "id".toList id
    | none => []
  "<h".toList ++ digitsOf level ++ idText ++ ['>'] ++ html ++ "</h".toList ++ digitsOf level ++ ['>']

/-- `extra` stands verbatim after the tag name and opens with a blank when it is not empty. -/
def anchorTag (extra href : List Char) (title : Option (List Char)) (html : List Char) :
    List Char :=
  "<a".toList ++ extra ++ writeAttr "href".toList href ++ titleAttribute title ++ ['>'] ++ html ++
    "</a>".toList

def imageTag (extra src : List Char) (title : Option (List Char)) (alt : List Char)
    (selfClosing : Bool) : List Char :=
  "<img".toList ++ extra ++ writeAttr "src".toList src ++ writeAttr "alt".toList alt ++
    titleAttribute title ++ (if selfClosing then " />".toList else ">".toList)

end Bindery.Html
