import GnuSmv.Dd.Add
import GnuSmv.Reach.Engine
import GnuSmv.Reach.Backward
import GnuSmv.Sat.CnfNoCut
import GnuSmv.Enc.Encoding
import GnuSmv.Enc.Enum
import GnuSmv.Expr.Expr
import GnuSmv.Compiler.Internals
import GnuSmv.Compiler.Digits
import GnuSmv.Compiler.Walker
import GnuSmv.Compiler.Cache
import GnuSmv.Expr.Eval
import GnuSmv.Compiler.Refinement
import GnuSmv.Reach.Init
