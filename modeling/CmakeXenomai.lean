import CmakeXenomai.Bootstrap.Cmdline
import CmakeXenomai.Bootstrap.Startup
import CmakeXenomai.Bootstrap.FetchLedger
import CmakeXenomai.Bootstrap.Limits
import CmakeXenomai.Install.Relocate
import CmakeXenomai.Install.Derefvar
import CmakeXenomai.Install.Render
import CmakeXenomai.Install.Detect
import CmakeXenomai.Find.Decode
import CmakeXenomai.Macros.Accepts
import CmakeXenomai.Package.Links
import CmakeXenomai.Package.Installation
import CmakeXenomai.Package.Executable
