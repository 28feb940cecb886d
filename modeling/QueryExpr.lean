import QueryExpr.Checker
import QueryExpr.Json.Limits
import QueryExpr.Json.Schema
import QueryExpr.Main
import QueryExpr.Token.Cursor
import QueryExpr.Proofs.Expr.Parsing
import QueryExpr.Proofs.Compile.Containment
import QueryExpr.Proofs.Compile.Reparsing
import QueryExpr.Proofs.Compile.Limits
import QueryExpr.Proofs.Compile.Names
import QueryExpr.Proofs.Token.Tiling
import QueryExpr.Proofs.Compile.Pass
import QueryExpr.Proofs.Expr.Grouped
import QueryExpr.Proofs.Compile.Literals
import QueryExpr.Proofs.Token.Safety
import QueryExpr.Proofs.Token.Spacing
import QueryExpr.Proofs.Expr.Spacing
import QueryExpr.Proofs.Compile.Composition
import QueryExpr.Proofs.Token.Failure
import QueryExpr.Proofs.Expr.Location
import QueryExpr.Proofs.Token.Front
import QueryExpr.Proofs.Expr.Completion
import QueryExpr.Proofs.Json.RoundTrip
import QueryExpr.Proofs.Json.Tolerance
import QueryExpr.Proofs.Compile.Alike
import QueryExpr.Proofs.Compile.Isolation
import QueryExpr.Proofs.Expr.Height
import QueryExpr.Proofs.Compile.Identifiers
