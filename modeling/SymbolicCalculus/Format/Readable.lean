import SymbolicCalculus.Reduction.Configuration
import SymbolicCalculus.Reduction.Trace
import SymbolicCalculus.Yaml.Document
import SymbolicCalculus.Yaml.Scalar

/-! # Traces and settings as YAML -/
namespace SymbolicCalculus

open Yaml (Document scalarText)

/-- A kind is its name; one that carries a value is a mapping from its name to the value. -/
def Kind.document : Kind → Document
  | .var name => .mapping [("Variable", .scalar (scalarText name))]
  | .real value => .mapping [("Real", .scalar (NumeralLayout.yaml.render value))]
  | .integer value => .mapping [("Integer", .scalar (toString value.toInt))]
  | .diff regard => .mapping [("Diff", .scalar (scalarText regard))]
  | kind => .scalar kind.name

mutual

def Expr.document : Expr → Document
  | .node kind operands =>
    .mapping [("kind", kind.document), ("childs", .sequence (Expr.documents operands))]

def Expr.documents : List Expr → List Document
  | [] => []
  | e :: es => e.document :: Expr.documents es

end

def Step.document (step : Step) : Document :=
  .mapping [("path", .sequence (step.path.map fun i => .scalar (toString i))),
    ("rule_id", .scalar (toString step.ruleId)), ("rule", .scalar (scalarText step.rule))]

def Trace.document (trace : Trace) : Document :=
  .mapping [("changed", .scalar (toString trace.changed)),
    ("expression", trace.expression.document),
    ("steps", .sequence (trace.steps.map Step.document)),
    ("suppressed", .sequence (trace.suppressed.map Step.document))]

def Trace.toYaml (trace : Trace) : String := trace.document.render

def Configuration.document (c : Configuration) : Document :=
  .mapping [("log-capacity", .scalar (toString c.logCapacity)),
    ("min-period", .scalar (toString c.minPeriod)),
    ("loop-detection", .scalar (toString c.loopDetection))]

def Configuration.toYaml (c : Configuration) : String := c.document.render

end SymbolicCalculus
