import C380.MemLayout.Print
import C380.Notapp.Accept
import C380.Notapp.Argparser
import C380.Notapp.AtomicCalls
import C380.Notapp.Calls
import C380.Notapp.ExactlyOnce
import C380.Notapp.Logfile
import C380.Notapp.ObserverProtocol
import C380.Notapp.RefusedObserver
import C380.Notapp.Rotation
import C380.Notapp.RowFields
import C380.Notapp.Streams
import C380.Notapp.UserProtocol
import C380.Valws.DeleteExact
import C380.Valws.HeapWindow
import C380.Valws.LinkedWindow
import C380.Valws.ListRuns
import C380.Valws.Pages
import C380.Valws.PutDelete
import C380.Valws.WorkingSet
