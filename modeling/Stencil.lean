import Stencil.TemplateSet
import Stencil.Render.Sink
import Stencil.Json.Printer
import Stencil.Json.Reader
import Stencil.Proofs.Escape.InPlace
import Stencil.Proofs.Escape.Percent
import Stencil.Proofs.Escape.Ampersands
import Stencil.Proofs.Escape.ScriptText
import Stencil.Proofs.Escape.Literals
import Stencil.Proofs.Escape.StyleText
import Stencil.Proofs.Markup.Joining
import Stencil.Proofs.Markup.JoinLaws
import Stencil.Proofs.Markup.Ending
import Stencil.Proofs.Markup.Alike
import Stencil.Proofs.Markup.TemplateLiterals
import Stencil.Proofs.Markup.Parts
import Stencil.Proofs.Program.LostFault
import Stencil.Proofs.Program.Follow
import Stencil.Proofs.Program.Sets
import Stencil.Proofs.Template.Numbering
import Stencil.Proofs.Program.Unescaped
import Stencil.Proofs.Program.Structure
import Stencil.Proofs.Program.Safety
import Stencil.Proofs.Render.Stripped
import Stencil.Proofs.Program.LockStep
import Stencil.Proofs.Template.Places
import Stencil.Proofs.Template.Seams
import Stencil.Proofs.Template.Ahead
import Stencil.Proofs.Template.Relocation
import Stencil.Proofs.Template.Comments
import Stencil.Proofs.Program.Halves
import Stencil.Proofs.Render.Bare
import Stencil.Proofs.Render.Halves
import Stencil.Proofs.Program.Comments
import Stencil.Proofs.Markup.Cut
import Stencil.Proofs.Escape.Schemes
import Stencil.Proofs.Program.Additions
import Stencil.Proofs.Numeral.Reading
import Stencil.Proofs.Template.Spelling
import Stencil.Proofs.Template.Readback
import Stencil.Proofs.Program.Static
import Stencil.Proofs.Program.MissingKeys
import Stencil.Proofs.Program.Includes
import Stencil.Proofs.Template.Filling
import Stencil.Proofs.Program.Depth
import Stencil.Proofs.Program.Budget
import Stencil.Proofs.Program.Reports
import Stencil.Proofs.Program.Inlining
import Stencil.Proofs.Render.Shown
import Stencil.Proofs.Render.Piping
import Stencil.Proofs.Template.Lexemes
import Stencil.Proofs.Template.Brackets
import Stencil.Proofs.Template.Bodies
import Stencil.Proofs.Template.Expansion
import Stencil.Proofs.Template.Sugar
import Stencil.Proofs.Template.Literals
import Stencil.Proofs.Template.PathText
import Stencil.Proofs.Template.PathSyntax
import Stencil.Proofs.Template.Trimming
import Stencil.Proofs.Json.Values
import Stencil.Proofs.Markup.Indexed.Bounds
