import DeltaLang.Compile
import DeltaLang.Program.Encoding

/-!
# Results as JSON

The form in which findings, product configurations, types, nodes, annotations and location types
are reported, by the rules that program trees are dumped by.
-/

namespace DeltaLang

open Json

/-! ## Findings and products -/

/-- The severity as it is reported. -/
def Severity.tag : Severity → String
  | error => "Error"
  | warning => "Warning"
  | info => "Info"

def Diagnostic.toJson (d : Diagnostic) : Json :=
  obj [("kind", str d.kind.text), ("severity", str d.severity.tag), ("message", str d.message),
    ("location", locationJson d.loc), ("origin", ofOption str d.origin)]

def ProductConfig.toJson (c : ProductConfig) : Json :=
  obj [("product", ofOption str c.product), ("deltas", strings c.deltas)]

/-! ## Types, nodes and annotations -/

def Ty.toJson : Ty → Json
  | bool => str "Bool"
  | int => str "Int"
  | string => str "String"
  | unit => str "Unit"
  | fut t => tagged "Fut" (toJson t)
  | interface name => tagged "Interface" (str name)
  | «class» name => tagged "Class" (str name)
  | null => str "Null"
  | unknown => str "Unknown"

def NodeRef.toJson : NodeRef → Json
  | «class» c => tagged "Class" (obj [("class", str c)])
  | field c f => tagged "Field" (obj [("class", str c), ("field", str f)])
  | classParam c p => tagged "ClassParam" (obj [("class", str c), ("param", str p)])
  | method c m => tagged "Method" (obj [("class", str c), ("method", str m)])
  | param c b p => tagged "Param" (obj [("class", str c), ("body", str b), ("param", str p)])
  | «local» c b n i =>
    tagged "Local" (obj [("class", str c), ("body", str b), ("name", str n), ("index", nat i)])
  | expr c b i => tagged "Expr" (obj [("class", str c), ("body", str b), ("index", nat i)])

def AnnotationValue.toJson : AnnotationValue → Json
  | flag b => tagged "Flag" (bool b)
  | int n => tagged "Int" (Json.int n)
  | text s => tagged "Text" (str s)

def AnnotationRecord.toJson (r : AnnotationRecord) : Json :=
  obj [("extension", str r.extension), ("node", r.node.toJson), ("value", r.value.toJson)]

/-! ## Location types -/

def LocationType.toJson : LocationType → Json
  | farOf site => tagged "ParametricFar" (nat site)
  | t => str t.kindName

/-- The precision as it is reported. -/
def Precision.tag : Precision → String
  | basic => "Basic"
  | methodLocal => "MethodLocal"
  | classLocal => "ClassLocal"
  | global => "Global"

def LocationOptions.toJson (o : LocationOptions) : Json :=
  obj [("default", o.default.toJson), ("precision", str o.precision.tag),
    ("statistics", bool o.statistics)]

/-! ## Phases -/

/-- The phase as it is reported. -/
def Phase.tag : Phase → String
  | parse => "Parse"
  | semantic => "Semantic"
  | productLine => "ProductLine"
  | flatten => "Flatten"
  | composition => "Composition"

end DeltaLang
